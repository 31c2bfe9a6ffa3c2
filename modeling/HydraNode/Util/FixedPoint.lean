import HydraNode.Util.TokenStr

/-!
# Fixed-point numbers from JSON

`ParseFixedPoint` (`util/strencodings.cpp`) reads the text of a JSON number as an integer amount
with `decimals` decimal places, the way the RPC layer reads amounts. It keeps the significant
digits of the number in `mantissa`, its trailing zeros in `mantissa_tzeros` (multiplied in only
when a nonzero digit follows), and folds them, the digits after the point and the written
exponent into one exponent at the end. Every multiplication by ten is checked against
`UPPER_BOUND = 10 ^ 18 - 1`, the largest number of 18 decimal digits.

The text is accepted exactly when it is a JSON number (`JsonNumber`) whose value times
`10 ^ decimals` is an integer of at most 18 digits, with one exception: a zero whose scaled
exponent `e + decimals` falls outside `[0, 18)` is rejected, although it is `0`
(`ParseFixedPoint_iff`). The positions of the source are `int`s; the characterization is stated
for strings shorter than `2 ^ 31`, where they do not overflow.

A string is the list of its characters; a character that is not ASCII is never a digit, a sign,
a point or an exponent mark, as a byte above `0x7f` of the source is none.

## Main definitions

* `ProcessMantissaDigit`, `mantissaLoop`, `exponentLoop`, `scaleLoop` — the loops of the source
* `parseIntegerPart`, `parseFractionPart`, `parseExponentPart`, `ParseFixedPoint`
* `JsonNumber` — the JSON number grammar, with its text and its value

## Main results

* `mantissaLoop_eq`, `exponentLoop_eq`, `scaleLoop_checked` — each loop computes its pure fold
  and fails exactly when the result leaves `[-UPPER_BOUND, UPPER_BOUND]`
* `ParseFixedPoint_text` — `ParseFixedPoint` of the text of a JSON number, in closed form
* `exists_of_ParseFixedPoint` — what `ParseFixedPoint` accepts is the text of a JSON number
* `ParseFixedPoint_iff` — the characterization
-/

namespace HydraNode

/-! ## The source -/

/-- `UPPER_BOUND`: `10 ^ 18 - 1`, the largest decimal of 18 digits. -/
def UPPER_BOUND : ℤ := 1000000000000000000 - 1

/-- The loop `for (int i=0; i<=mantissa_tzeros; ++i)` of `ProcessMantissaDigit`: multiply by ten
`k` times, failing before a multiplication that would leave `UPPER_BOUND`. -/
def mulTenLoop : ℕ → ℤ → Option ℤ
  | 0, mantissa => some mantissa
  | k + 1, mantissa => if mantissa > UPPER_BOUND / 10 then none else mulTenLoop k (mantissa * 10)

/-- `ProcessMantissaDigit`: a zero is counted in `mantissa_tzeros`; another digit first multiplies
the counted zeros in, and one more ten, and is then added. `none` on overflow. -/
def ProcessMantissaDigit (ch : Char) (mantissa : ℤ) (mantissa_tzeros : ℕ) : Option (ℤ × ℕ) :=
  if ch = '0' then some (mantissa, mantissa_tzeros + 1)
  else (mulTenLoop (mantissa_tzeros + 1) mantissa).map fun mantissa => (mantissa + digitValue ch, 0)

/-- A loop `while (ptr < end && IsDigit(val[ptr]))` over digits of the mantissa: what follows the
digits, and `mantissa`, `mantissa_tzeros` and `point_ofs` after them. After the point
(`countPoint`) every digit also counts in `point_ofs`. -/
def mantissaLoop (countPoint : Bool) :
    List Char → ℤ → ℕ → ℕ → Option (List Char × ℤ × ℕ × ℕ)
  | [], mantissa, mantissa_tzeros, point_ofs => some ([], mantissa, mantissa_tzeros, point_ofs)
  | c :: cs, mantissa, mantissa_tzeros, point_ofs =>
    if IsDigit c then
      (ProcessMantissaDigit c mantissa mantissa_tzeros).bind fun (mantissa, mantissa_tzeros) =>
        mantissaLoop countPoint cs mantissa mantissa_tzeros
          (if countPoint then point_ofs + 1 else point_ofs)
    else some (c :: cs, mantissa, mantissa_tzeros, point_ofs)

/-- The loop over the digits of the exponent, checked before each multiplication. -/
def exponentLoop : List Char → ℤ → Option (List Char × ℤ)
  | [], exponent => some ([], exponent)
  | c :: cs, exponent =>
    if IsDigit c then
      if exponent > UPPER_BOUND / 10 then none
      else exponentLoop cs (exponent * 10 + digitValue c)
    else some (c :: cs, exponent)

/-- The final loop `for (int i=0; i < exponent; ++i)`, which scales the signed mantissa. -/
def scaleLoop : ℕ → ℤ → Option ℤ
  | 0, mantissa => some mantissa
  | k + 1, mantissa =>
    if mantissa > UPPER_BOUND / 10 ∨ mantissa < -(UPPER_BOUND / 10) then none
    else scaleLoop k (mantissa * 10)

/-- The integer part: a single `0` is passed over; otherwise a digit from `1` to `9` and the
digits after it are read into the mantissa. `none` on an empty string, a loose `-`, a missing
digit, or overflow. -/
def parseIntegerPart : List Char → Option (List Char × ℤ × ℕ)
  | [] => none
  | c :: cs =>
    if c = '0' then some (cs, 0, 0)
    else if '1' ≤ c ∧ c ≤ '9' then
      (mantissaLoop false (c :: cs) 0 0 0).map fun (rest, mantissa, mantissa_tzeros, _) =>
        (rest, mantissa, mantissa_tzeros)
    else none

/-- The fraction: after a point at least one digit, all read into the mantissa and counted in
`point_ofs`. Without a point nothing is read. -/
def parseFractionPart (s : List Char) (mantissa : ℤ) (mantissa_tzeros : ℕ) :
    Option (List Char × ℤ × ℕ × ℕ) :=
  match s with
  | '.' :: cs =>
    match cs with
    | c :: _ => if IsDigit c then mantissaLoop true cs mantissa mantissa_tzeros 0 else none
    | [] => none
  | _ => some (s, mantissa, mantissa_tzeros, 0)

/-- The sign of the exponent: a `+` or a `-` may follow the exponent mark. -/
def exponentSign : List Char → Bool × List Char
  | '+' :: cs => (false, cs)
  | '-' :: cs => (true, cs)
  | cs => (false, cs)

/-- The exponent: after `e` or `E` an optional sign and at least one digit; its digits' value and
`exponent_sign`. Without a mark nothing is read. -/
def parseExponentPart (s : List Char) : Option (List Char × ℤ × Bool) :=
  match s with
  | c :: cs =>
    if c = 'e' ∨ c = 'E' then
      match exponentSign cs with
      | (exponent_sign, d :: ds) =>
        if IsDigit d then (exponentLoop (d :: ds) 0).map fun (rest, exponent) => (rest, exponent, exponent_sign)
        else none
      | (_, []) => none
    else some (c :: cs, 0, false)
  | [] => some ([], 0, false)

/-- The sign of the mantissa: a leading `-`. -/
def mantissaSign : List Char → Bool × List Char
  | '-' :: cs => (true, cs)
  | cs => (false, cs)

/-- `ParseFixedPoint`: the amount, or `none` where the source returns `false`. -/
def ParseFixedPoint (val : List Char) (decimals : ℤ) : Option ℤ := do
  let (mantissa_sign, s) := mantissaSign val
  let (s, mantissa, mantissa_tzeros) ← parseIntegerPart s
  let (s, mantissa, mantissa_tzeros, point_ofs) ← parseFractionPart s mantissa mantissa_tzeros
  let (s, exponent, exponent_sign) ← parseExponentPart s
  -- trailing garbage
  if s ≠ [] then none
  else
    let exponent := (if exponent_sign then -exponent else exponent) - point_ofs + mantissa_tzeros
    let mantissa := if mantissa_sign then -mantissa else mantissa
    let exponent := exponent + decimals
    if exponent < 0 then none
    else if exponent ≥ 18 then none
    else
      (scaleLoop exponent.toNat mantissa).bind fun mantissa =>
        if mantissa > UPPER_BOUND ∨ mantissa < -UPPER_BOUND then none else some mantissa

/-! ## JSON numbers -/

/-- A nonempty string of digits. -/
def IsDigits (l : List Char) : Prop := l ≠ [] ∧ ∀ c ∈ l, IsDigit c = true

/-- The integer part of a JSON number: `0`, or a digit from `1` to `9` and digits after it. -/
def IsIntPart (l : List Char) : Prop :=
  l = ['0'] ∨ ∃ c cs, l = c :: cs ∧ '1' ≤ c ∧ c ≤ '9' ∧ ∀ d ∈ cs, IsDigit d = true

/-- A number of the JSON grammar `-?(0|[1-9][0-9]*)(\.[0-9]+)?([eE][+-]?[0-9]+)?`, cut into its
parts: the sign, the integer part, the digits after the point if there is one, and the exponent
mark, its sign and its digits if there is one. -/
structure JsonNumber where
  negative : Bool
  intPart : List Char
  fracPart : Option (List Char)
  expPart : Option (Char × Option Char × List Char)
  deriving DecidableEq, Repr

namespace JsonNumber

/-- The parts are those of the grammar. -/
def Valid (j : JsonNumber) : Prop :=
  IsIntPart j.intPart ∧ (∀ f ∈ j.fracPart, IsDigits f) ∧
    ∀ x ∈ j.expPart, (x.1 = 'e' ∨ x.1 = 'E') ∧ (x.2.1 = none ∨ x.2.1 = some '+' ∨ x.2.1 = some '-') ∧
      IsDigits x.2.2

/-- The text of the point and the fraction. -/
def fracText : Option (List Char) → List Char
  | none => []
  | some f => '.' :: f

/-- The text of the exponent. -/
def expText : Option (Char × Option Char × List Char) → List Char
  | none => []
  | some (e, sign, ds) => e :: (sign.toList ++ ds)

/-- The text of the number. -/
def text (j : JsonNumber) : List Char :=
  (if j.negative then ['-'] else []) ++ j.intPart ++ fracText j.fracPart ++ expText j.expPart

/-- The digits after the point. -/
def fracDigits (j : JsonNumber) : List Char := j.fracPart.getD []

/-- The written exponent. -/
def exponent (j : JsonNumber) : ℤ :=
  match j.expPart with
  | none => 0
  | some (_, sign, ds) => if sign = some '-' then -readDigits ds else readDigits ds

/-- The digits of the exponent. -/
def expDigits (j : JsonNumber) : List Char :=
  match j.expPart with
  | none => []
  | some (_, _, ds) => ds

/-- Whether the exponent is negative. -/
def expNegative (j : JsonNumber) : Bool :=
  match j.expPart with
  | none => false
  | some (_, sign, _) => sign = some '-'

/-- The rational number it denotes. -/
def value (j : JsonNumber) : ℚ :=
  (if j.negative then -1 else 1) * (readDigits (j.intPart ++ j.fracDigits) : ℚ) *
    (10 : ℚ) ^ (j.exponent - j.fracDigits.length)

end JsonNumber

/-! ## The loops

Each loop of the source computes a pure fold of the digits it reads, and checks before every
multiplication by ten that the result cannot leave `UPPER_BOUND`. As the folds only grow, the
checks together fail exactly when the final value is out of range. -/

theorem UPPER_BOUND_eq : UPPER_BOUND = 999999999999999999 := rfl

theorem UPPER_BOUND_div_ten : UPPER_BOUND / 10 = 99999999999999999 := by
  norm_num [UPPER_BOUND]

theorem digitValue_pos {c : Char} (hc : IsDigit c = true) (h0 : c ≠ '0') : 1 ≤ digitValue c := by
  obtain ⟨hd0, -⟩ := digitValue_bounds hc
  have hne : c.toNat ≠ 48 := fun h => h0 (Char.toNat_inj.mp h)
  unfold digitValue at hd0 ⊢
  omega

/-- Multiplying by ten `k + 1` times succeeds when the value before the last multiplication is
at most `UPPER_BOUND / 10`. -/
theorem mulTenLoop_succ (k : ℕ) {mantissa : ℤ} (hm : 0 ≤ mantissa) :
    mulTenLoop (k + 1) mantissa =
      if mantissa * 10 ^ k ≤ UPPER_BOUND / 10 then some (mantissa * 10 ^ (k + 1)) else none := by
  induction k generalizing mantissa with
  | zero =>
    rw [mulTenLoop, mulTenLoop, pow_zero, mul_one, pow_one]
    split_ifs <;> first | rfl | omega
  | succ k ih =>
    rw [mulTenLoop, ih (by positivity)]
    simp only [mul_assoc, ← pow_succ']
    have hle : mantissa ≤ mantissa * 10 ^ (k + 1) :=
      le_mul_of_one_le_right hm (one_le_pow₀ (by norm_num))
    split_ifs <;> first | rfl | omega

/-- One digit of the mantissa without overflow checks: `mantissa_tzeros` counts zeros until a
nonzero digit multiplies them in. -/
def mantissaStep (st : ℤ × ℕ) (c : Char) : ℤ × ℕ :=
  if c = '0' then (st.1, st.2 + 1) else (st.1 * 10 ^ (st.2 + 1) + digitValue c, 0)

/-- The mantissa and its trailing zeros after some digits, without overflow checks. -/
def mantissaOf (st : ℤ × ℕ) (ds : List Char) : ℤ × ℕ := ds.foldl mantissaStep st

@[simp] theorem mantissaOf_nil (st : ℤ × ℕ) : mantissaOf st [] = st := rfl

@[simp] theorem mantissaOf_cons (st : ℤ × ℕ) (c : Char) (ds : List Char) :
    mantissaOf st (c :: ds) = mantissaOf (mantissaStep st c) ds := rfl

theorem mantissaOf_append (st : ℤ × ℕ) (ds es : List Char) :
    mantissaOf st (ds ++ es) = mantissaOf (mantissaOf st ds) es := by
  rw [mantissaOf, List.foldl_append]
  rfl

/-- A checked digit is the unchecked step, when its mantissa stays in range. -/
theorem ProcessMantissaDigit_eq {c : Char} (hc : IsDigit c = true) {mantissa : ℤ} (tzeros : ℕ)
    (h0 : 0 ≤ mantissa) (hU : mantissa ≤ UPPER_BOUND) :
    ProcessMantissaDigit c mantissa tzeros =
      if (mantissaStep (mantissa, tzeros) c).1 ≤ UPPER_BOUND then
        some (mantissaStep (mantissa, tzeros) c) else none := by
  unfold ProcessMantissaDigit mantissaStep
  by_cases hzero : c = '0'
  · simp [hzero, hU]
  · have hd := digitValue_pos hc hzero
    have hd9 := (digitValue_bounds hc).2
    rw [if_neg hzero, if_neg hzero, mulTenLoop_succ _ h0, pow_succ, ← mul_assoc,
      UPPER_BOUND_div_ten]
    have hU' := UPPER_BOUND_eq
    -- the check before the last multiplication is the bound on the result
    split_ifs <;> first | rfl | omega

theorem mantissaStep_value (st : ℤ × ℕ) (c : Char) :
    (mantissaStep st c).1 * 10 ^ (mantissaStep st c).2 = st.1 * 10 ^ st.2 * 10 + digitValue c := by
  unfold mantissaStep
  split_ifs with h
  · subst h
    rw [pow_succ, show digitValue '0' = 0 from rfl]
    ring
  · rw [pow_zero, mul_one, pow_succ]
    ring

/-- The digits read, as a number: the mantissa with its trailing zeros multiplied back in. -/
theorem mantissaOf_value (st : ℤ × ℕ) (ds : List Char) :
    (mantissaOf st ds).1 * 10 ^ (mantissaOf st ds).2 =
      st.1 * 10 ^ st.2 * 10 ^ ds.length + readDigits ds := by
  induction ds generalizing st with
  | nil => simp [readDigits]
  | cons c ds ih =>
    rw [mantissaOf_cons, ih, mantissaStep_value, readDigits_cons, List.length_cons, pow_succ]
    ring

theorem le_mantissaStep {st : ℤ × ℕ} {c : Char} (hc : IsDigit c = true) (h0 : 0 ≤ st.1) :
    st.1 ≤ (mantissaStep st c).1 := by
  unfold mantissaStep
  split_ifs
  · exact le_rfl
  · have hd := (digitValue_bounds hc).1
    have hmul : st.1 ≤ st.1 * 10 ^ (st.2 + 1) := le_mul_of_one_le_right h0 (one_le_pow₀ (by norm_num))
    dsimp only
    omega

/-- The mantissa only grows. -/
theorem le_mantissaOf {st : ℤ × ℕ} {ds : List Char} (hds : ∀ c ∈ ds, IsDigit c = true)
    (h0 : 0 ≤ st.1) : st.1 ≤ (mantissaOf st ds).1 := by
  induction ds generalizing st with
  | nil => exact le_rfl
  | cons c ds ih =>
    have hstep := le_mantissaStep (hds c (List.mem_cons_self ..)) h0
    exact hstep.trans (ih (fun d hd => hds d (List.mem_cons_of_mem _ hd)) (h0.trans hstep))

theorem forall_IsDigit_takeWhile (s : List Char) : ∀ c ∈ s.takeWhile IsDigit, IsDigit c = true :=
  fun _ hc => List.mem_takeWhile_imp hc

/-- The digit loop of the mantissa reads the digits in front, and fails exactly when their
mantissa leaves `UPPER_BOUND`. -/
theorem mantissaLoop_eq (countPoint : Bool) (s : List Char) {mantissa : ℤ} (tzeros point_ofs : ℕ)
    (h0 : 0 ≤ mantissa) (hU : mantissa ≤ UPPER_BOUND) :
    mantissaLoop countPoint s mantissa tzeros point_ofs =
      if (mantissaOf (mantissa, tzeros) (s.takeWhile IsDigit)).1 ≤ UPPER_BOUND then
        some (s.dropWhile IsDigit, (mantissaOf (mantissa, tzeros) (s.takeWhile IsDigit)).1,
          (mantissaOf (mantissa, tzeros) (s.takeWhile IsDigit)).2,
          point_ofs + if countPoint then (s.takeWhile IsDigit).length else 0)
      else none := by
  induction s generalizing mantissa tzeros point_ofs with
  | nil => simp [mantissaLoop, hU]
  | cons c s ih =>
    by_cases hc : IsDigit c = true
    · rw [mantissaLoop, if_pos hc, ProcessMantissaDigit_eq hc tzeros h0 hU,
        List.takeWhile_cons_of_pos hc, List.dropWhile_cons_of_pos hc, mantissaOf_cons]
      have hle : mantissa ≤ (mantissaStep (mantissa, tzeros) c).1 := le_mantissaStep hc h0
      have hmono := @le_mantissaOf (mantissaStep (mantissa, tzeros) c) _
        (forall_IsDigit_takeWhile s) (h0.trans hle)
      generalize mantissaStep (mantissa, tzeros) c = st at hle hmono ⊢
      obtain ⟨m, z⟩ := st
      by_cases hstep : m ≤ UPPER_BOUND
      · rw [if_pos hstep, Option.bind_some]
        dsimp only
        rw [ih _ _ (h0.trans hle) hstep]
        cases countPoint <;> simp only [Bool.false_eq_true, if_false, if_true, List.length_cons,
          Nat.add_assoc, Nat.add_comm 1]
      · -- the digit overflows, and the digits after it only make the mantissa larger
        rw [if_neg hstep, Option.bind_none, if_neg (by omega)]
    · rw [mantissaLoop, if_neg hc, List.takeWhile_cons_of_neg hc, List.dropWhile_cons_of_neg hc]
      simp [hU]

/-- The digit loop of the exponent reads the digits in front, and fails exactly when their value
leaves `UPPER_BOUND`. -/
theorem exponentLoop_eq (s : List Char) {exponent : ℤ} (h0 : 0 ≤ exponent)
    (hU : exponent ≤ UPPER_BOUND) :
    exponentLoop s exponent =
      if exponent * 10 ^ (s.takeWhile IsDigit).length + readDigits (s.takeWhile IsDigit) ≤
          UPPER_BOUND then
        some (s.dropWhile IsDigit,
          exponent * 10 ^ (s.takeWhile IsDigit).length + readDigits (s.takeWhile IsDigit))
      else none := by
  induction s generalizing exponent with
  | nil => simp [exponentLoop, readDigits, hU]
  | cons c s ih =>
    by_cases hc : IsDigit c = true
    · obtain ⟨hd0, hd9⟩ := digitValue_bounds hc
      obtain ⟨hr0, -⟩ := readDigits_bounds (forall_IsDigit_takeWhile s)
      have hval : exponent * 10 ^ (c :: s.takeWhile IsDigit).length +
          readDigits (c :: s.takeWhile IsDigit) =
          (exponent * 10 + digitValue c) * 10 ^ (s.takeWhile IsDigit).length +
            readDigits (s.takeWhile IsDigit) := by
        rw [readDigits_cons, List.length_cons, pow_succ]
        ring
      rw [exponentLoop, if_pos hc, List.takeWhile_cons_of_pos hc, List.dropWhile_cons_of_pos hc,
        hval, UPPER_BOUND_div_ten]
      have hU' := UPPER_BOUND_eq
      by_cases hbig : exponent > 99999999999999999
      · -- the value is out of range after this digit, and the digits after it only scale it up
        have hmul : exponent * 10 + digitValue c ≤
            (exponent * 10 + digitValue c) * 10 ^ (s.takeWhile IsDigit).length :=
          le_mul_of_one_le_right (by omega) (one_le_pow₀ (by norm_num))
        rw [if_pos hbig, if_neg (by omega)]
      · rw [if_neg hbig, ih (by omega) (by omega)]
    · rw [exponentLoop, if_neg hc, List.takeWhile_cons_of_neg hc, List.dropWhile_cons_of_neg hc]
      simp [readDigits, hU]

/-- The final scaling with the range check after it: the mantissa times `10 ^ k`, when that is
within `UPPER_BOUND`. -/
theorem scaleLoop_checked (k : ℕ) (mantissa : ℤ) :
    ((scaleLoop k mantissa).bind fun mantissa =>
        if mantissa > UPPER_BOUND ∨ mantissa < -UPPER_BOUND then none else some mantissa) =
      if |mantissa| * 10 ^ k ≤ UPPER_BOUND then some (mantissa * 10 ^ k) else none := by
  induction k generalizing mantissa with
  | zero =>
    rw [scaleLoop, Option.bind_some, pow_zero, mul_one, mul_one]
    have habs := @abs_le _ _ _ _ mantissa UPPER_BOUND
    split_ifs <;> first | rfl | omega
  | succ k ih =>
    rw [scaleLoop]
    by_cases hbig : mantissa > UPPER_BOUND / 10 ∨ mantissa < -(UPPER_BOUND / 10)
    · -- out of range after one more multiplication, and the others only scale it up
      have habs : UPPER_BOUND / 10 < |mantissa| := by
        rw [lt_abs]
        omega
      have hmul : |mantissa| * 10 ≤ |mantissa| * 10 * 10 ^ k :=
        le_mul_of_one_le_right (by positivity) (one_le_pow₀ (by norm_num))
      rw [UPPER_BOUND_div_ten] at habs
      rw [if_pos hbig, Option.bind_none, pow_succ', ← mul_assoc, if_neg (by rw [UPPER_BOUND_eq]; omega)]
    · rw [if_neg hbig, ih, abs_mul, abs_of_pos (by norm_num : (0 : ℤ) < 10), mul_assoc,
        ← pow_succ', mul_assoc, ← pow_succ']

/-! ## The phases on the text of a JSON number -/

/-- Digits followed by a text that does not start with one: the loops read exactly the digits. -/
theorem takeWhile_append_of_head {p : Char → Bool} {ds rest : List Char} (hds : ∀ c ∈ ds, p c = true)
    (hrest : ∀ c ∈ rest.head?, p c = false) :
    (ds ++ rest).takeWhile p = ds ∧ (ds ++ rest).dropWhile p = rest := by
  rw [List.takeWhile_append_of_pos hds, List.dropWhile_append_of_pos hds]
  cases rest with
  | nil => simp
  | cons c rest =>
    have hc : p c = false := hrest c rfl
    rw [List.takeWhile_cons_of_neg (by simp [hc]), List.dropWhile_cons_of_neg (by simp [hc]),
      List.append_nil]
    exact ⟨rfl, rfl⟩

theorem IsDigit_of_one_le {c : Char} (h1 : '1' ≤ c) (h9 : c ≤ '9') : IsDigit c = true := by
  simp only [IsDigit, Bool.and_eq_true, decide_eq_true_eq]
  exact ⟨le_trans (by decide) h1, h9⟩

/-- The exponent marks are not digits, nor the point. -/
theorem not_IsDigit_of_mark {c : Char} (h : c = 'e' ∨ c = 'E') : IsDigit c = false ∧ c ≠ '.' := by
  rcases h with rfl | rfl <;> decide

/-- The text after the sign. -/
theorem mantissaSign_text {j : JsonNumber} (hip : IsIntPart j.intPart) :
    mantissaSign j.text = (j.negative, j.intPart ++ JsonNumber.fracText j.fracPart ++
      JsonNumber.expText j.expPart) := by
  obtain ⟨c, cs, hcs, hc⟩ : ∃ c cs, j.intPart = c :: cs ∧ c ≠ '-' := by
    rcases hip with h | ⟨c, cs, h, h1, -, -⟩
    · exact ⟨'0', [], h, by decide⟩
    · exact ⟨c, cs, h, fun hc => absurd h1 (by rw [hc]; decide)⟩
  unfold JsonNumber.text
  cases j.negative
  · rw [hcs]
    simp [mantissaSign, hc]
  · simp [mantissaSign]

/-- The digits of an integer part that the mantissa reads: none for a single `0`. -/
def intDigits (ip : List Char) : List Char := if ip = ['0'] then [] else ip

/-- The integer part, followed by a text that does not start with a digit. -/
theorem parseIntegerPart_append {ip rest : List Char} (hip : IsIntPart ip)
    (hrest : ∀ c ∈ rest.head?, IsDigit c = false) :
    parseIntegerPart (ip ++ rest) =
      if (mantissaOf (0, 0) (intDigits ip)).1 ≤ UPPER_BOUND then
        some (rest, mantissaOf (0, 0) (intDigits ip))
      else none := by
  rcases hip with rfl | ⟨c, cs, rfl, h1, h9, hcs⟩
  · simp [parseIntegerPart, intDigits, UPPER_BOUND_eq]
  · have hc0 : c ≠ '0' := fun hc => absurd h1 (by rw [hc]; decide)
    have hdig : ∀ d ∈ c :: cs, IsDigit d = true := by
      intro d hd
      rcases List.mem_cons.mp hd with rfl | hd
      · exact IsDigit_of_one_le h1 h9
      · exact hcs d hd
    obtain ⟨htake, hdrop⟩ := takeWhile_append_of_head hdig hrest
    have hne : c :: cs ≠ ['0'] := by simp [hc0]
    rw [List.cons_append, parseIntegerPart, if_neg hc0, if_pos ⟨h1, h9⟩, ← List.cons_append,
      mantissaLoop_eq _ _ _ _ le_rfl (by rw [UPPER_BOUND_eq]; omega), htake, hdrop, intDigits,
      if_neg hne]
    split_ifs <;> rfl

/-- The fraction, followed by the exponent. -/
theorem parseFractionPart_text {f : Option (List Char)} (hf : ∀ ds ∈ f, IsDigits ds)
    {rest : List Char} (hrest : ∀ c ∈ rest.head?, c = 'e' ∨ c = 'E') {mantissa : ℤ} (tzeros : ℕ)
    (h0 : 0 ≤ mantissa) (hU : mantissa ≤ UPPER_BOUND) :
    parseFractionPart (JsonNumber.fracText f ++ rest) mantissa tzeros =
      if (mantissaOf (mantissa, tzeros) (f.getD [])).1 ≤ UPPER_BOUND then
        some (rest, (mantissaOf (mantissa, tzeros) (f.getD [])).1,
          (mantissaOf (mantissa, tzeros) (f.getD [])).2, (f.getD []).length)
      else none := by
  cases f with
  | none =>
    rw [Option.getD_none, mantissaOf_nil, if_pos hU, JsonNumber.fracText, List.nil_append]
    cases rest with
    | nil => rfl
    | cons c rest =>
      rcases hrest c rfl with rfl | rfl <;> rfl
  | some ds =>
    obtain ⟨hne, hds⟩ := hf ds rfl
    obtain ⟨d, ds', rfl⟩ := List.exists_cons_of_ne_nil hne
    have hnot : ∀ c ∈ rest.head?, IsDigit c = false := fun c hc => (not_IsDigit_of_mark (hrest c hc)).1
    obtain ⟨htake, hdrop⟩ := takeWhile_append_of_head hds hnot
    rw [JsonNumber.fracText, List.cons_append, List.cons_append]
    show (if IsDigit d = true then mantissaLoop true (d :: (ds' ++ rest)) mantissa tzeros 0
      else none) = _
    rw [if_pos (hds d (List.mem_cons_self ..)), ← List.cons_append,
      mantissaLoop_eq _ _ _ _ h0 hU, htake, hdrop, Nat.zero_add, if_pos rfl, Option.getD_some]

/-- The sign of the exponent in front of its digits. -/
theorem exponentSign_append {sign : Option Char} (hsign : sign = none ∨ sign = some '+' ∨ sign = some '-')
    {ds : List Char} (hds : IsDigits ds) :
    exponentSign (sign.toList ++ ds) = (decide (sign = some '-'), ds) := by
  obtain ⟨hne, hdig⟩ := hds
  obtain ⟨d, ds', rfl⟩ := List.exists_cons_of_ne_nil hne
  have hd := hdig d (List.mem_cons_self ..)
  rcases hsign with rfl | rfl | rfl
  · have hplus : d ≠ '+' := fun h => absurd hd (by rw [h]; decide)
    have hminus : d ≠ '-' := fun h => absurd hd (by rw [h]; decide)
    simp [exponentSign, hplus, hminus]
  · rfl
  · rfl

/-- The exponent, at the end of the text. -/
theorem parseExponentPart_text {j : JsonNumber}
    (hx : ∀ x ∈ j.expPart, (x.1 = 'e' ∨ x.1 = 'E') ∧
      (x.2.1 = none ∨ x.2.1 = some '+' ∨ x.2.1 = some '-') ∧ IsDigits x.2.2) :
    parseExponentPart (JsonNumber.expText j.expPart) =
      if readDigits j.expDigits ≤ UPPER_BOUND then
        some ([], readDigits j.expDigits, j.expNegative)
      else none := by
  unfold JsonNumber.expDigits JsonNumber.expNegative
  cases hj : j.expPart with
  | none => simp [JsonNumber.expText, parseExponentPart, readDigits, UPPER_BOUND_eq]
  | some x =>
    obtain ⟨e, sign, ds⟩ := x
    obtain ⟨he, hsign, hds⟩ := hx _ hj
    obtain ⟨hne, hdig⟩ := hds
    obtain ⟨d, ds', rfl⟩ := List.exists_cons_of_ne_nil hne
    obtain ⟨htake, hdrop⟩ := @takeWhile_append_of_head _ _ [] hdig (by simp)
    rw [List.append_nil] at htake hdrop
    rw [JsonNumber.expText, parseExponentPart, if_pos he, exponentSign_append hsign ⟨hne, hdig⟩]
    dsimp only
    rw [if_pos (hdig d (List.mem_cons_self ..)), exponentLoop_eq _ le_rfl (by rw [UPPER_BOUND_eq]; omega),
      htake, hdrop, zero_mul, zero_add]
    split_ifs <;> rfl

/-! ## `ParseFixedPoint` of the text of a JSON number -/

namespace JsonNumber

/-- The significant digits: the integer part unless it is a single `0`, and the fraction. -/
def significand (j : JsonNumber) : List Char := intDigits j.intPart ++ j.fracDigits

/-- The mantissa of the significant digits. -/
def mantissa (j : JsonNumber) : ℤ := (mantissaOf (0, 0) j.significand).1

/-- The trailing zeros of the significant digits. -/
def tzeros (j : JsonNumber) : ℕ := (mantissaOf (0, 0) j.significand).2

/-- The exponent of the mantissa in the amount with `decimals` decimals. -/
def scaledExponent (j : JsonNumber) (decimals : ℤ) : ℤ :=
  j.exponent - j.fracDigits.length + j.tzeros + decimals

theorem exponent_eq (j : JsonNumber) :
    j.exponent = if j.expNegative then -readDigits j.expDigits else readDigits j.expDigits := by
  unfold exponent expNegative expDigits
  rcases j.expPart with _ | ⟨e, sign, ds⟩
  · simp [readDigits]
  · simp only [decide_eq_true_eq]

end JsonNumber

theorem forall_IsDigit_intDigits {ip : List Char} (hip : IsIntPart ip) :
    ∀ c ∈ intDigits ip, IsDigit c = true := by
  unfold intDigits
  rcases hip with rfl | ⟨c, cs, rfl, h1, h9, hcs⟩
  · simp
  · rw [if_neg (by simp; exact fun hc => absurd h1 (by rw [hc]; decide))]
    intro d hd
    rcases List.mem_cons.mp hd with rfl | hd
    · exact IsDigit_of_one_le h1 h9
    · exact hcs d hd

theorem forall_IsDigit_fracDigits {j : JsonNumber} (hf : ∀ ds ∈ j.fracPart, IsDigits ds) :
    ∀ c ∈ j.fracDigits, IsDigit c = true := by
  unfold JsonNumber.fracDigits
  cases h : j.fracPart with
  | none => simp
  | some ds => exact (hf ds h).2

theorem forall_IsDigit_significand {j : JsonNumber} (hj : j.Valid) :
    ∀ c ∈ j.significand, IsDigit c = true := by
  intro c hc
  rcases List.mem_append.mp hc with hc | hc
  · exact forall_IsDigit_intDigits hj.1 c hc
  · exact forall_IsDigit_fracDigits hj.2.1 c hc

/-- What follows the exponent mark's position starts with the mark, if anything. -/
theorem head_expText {j : JsonNumber}
    (hx : ∀ x ∈ j.expPart, (x.1 = 'e' ∨ x.1 = 'E') ∧
      (x.2.1 = none ∨ x.2.1 = some '+' ∨ x.2.1 = some '-') ∧ IsDigits x.2.2) :
    ∀ c ∈ (JsonNumber.expText j.expPart).head?, c = 'e' ∨ c = 'E' := by
  cases h : j.expPart with
  | none => simp [JsonNumber.expText]
  | some x =>
    obtain ⟨e, sign, ds⟩ := x
    intro c hc
    simp only [JsonNumber.expText, List.head?_cons, Option.mem_def, Option.some.injEq] at hc
    exact hc ▸ (hx _ h).1

/-- What follows the integer part starts with the point or the exponent mark, if anything. -/
theorem head_fracText_append {j : JsonNumber}
    (hx : ∀ x ∈ j.expPart, (x.1 = 'e' ∨ x.1 = 'E') ∧
      (x.2.1 = none ∨ x.2.1 = some '+' ∨ x.2.1 = some '-') ∧ IsDigits x.2.2) :
    ∀ c ∈ (JsonNumber.fracText j.fracPart ++ JsonNumber.expText j.expPart).head?,
      IsDigit c = false := by
  cases j.fracPart with
  | none => exact fun c hc => (not_IsDigit_of_mark (head_expText hx c hc)).1
  | some ds =>
    intro c hc
    simp only [JsonNumber.fracText, List.cons_append, List.head?_cons, Option.mem_def,
      Option.some.injEq] at hc
    rw [← hc]
    rfl

/-- `ParseFixedPoint` of the text of a JSON number: its signed mantissa scaled to `decimals`
decimals, when the mantissa, the exponent's digits and the scaled amount are in range. -/
theorem ParseFixedPoint_text (j : JsonNumber) (hj : j.Valid) (decimals : ℤ) :
    ParseFixedPoint j.text decimals =
      if j.mantissa ≤ UPPER_BOUND ∧ readDigits j.expDigits ≤ UPPER_BOUND ∧
          0 ≤ j.scaledExponent decimals ∧ j.scaledExponent decimals < 18 ∧
          j.mantissa * 10 ^ (j.scaledExponent decimals).toNat ≤ UPPER_BOUND then
        some ((if j.negative then -j.mantissa else j.mantissa) *
          10 ^ (j.scaledExponent decimals).toNat)
      else none := by
  obtain ⟨hip, hfrac, hexp⟩ := hj
  -- the mantissa after the integer part, which the fraction only makes larger
  have hint0 : 0 ≤ (mantissaOf (0, 0) (intDigits j.intPart)).1 :=
    le_mantissaOf (forall_IsDigit_intDigits hip) le_rfl
  have hsig : mantissaOf (mantissaOf (0, 0) (intDigits j.intPart)) (j.fracPart.getD []) =
      mantissaOf (0, 0) j.significand := by
    rw [JsonNumber.significand, mantissaOf_append]
    rfl
  have hmono : (mantissaOf (0, 0) (intDigits j.intPart)).1 ≤ j.mantissa := by
    rw [JsonNumber.mantissa, ← hsig]
    exact le_mantissaOf (forall_IsDigit_fracDigits hfrac) hint0
  have hM0 : 0 ≤ j.mantissa := hint0.trans hmono
  unfold ParseFixedPoint
  rw [mantissaSign_text hip]
  dsimp only
  rw [List.append_assoc, parseIntegerPart_append hip (head_fracText_append hexp)]
  by_cases h1 : (mantissaOf (0, 0) (intDigits j.intPart)).1 ≤ UPPER_BOUND
  swap
  · rw [if_neg h1]
    exact (if_neg fun h => h1 (hmono.trans h.1)).symm
  rw [if_pos h1]
  simp only [Option.bind_eq_bind, Option.bind_some]
  rw [parseFractionPart_text hfrac (head_expText hexp) _ hint0 h1, hsig]
  change (if j.mantissa ≤ UPPER_BOUND then some (_, j.mantissa, j.tzeros, _) else none).bind _ = _
  by_cases h2 : j.mantissa ≤ UPPER_BOUND
  swap
  · rw [if_neg h2]
    exact (if_neg fun h => h2 h.1).symm
  rw [if_pos h2, Option.bind_some]
  dsimp only
  rw [parseExponentPart_text hexp]
  by_cases h3 : readDigits j.expDigits ≤ UPPER_BOUND
  swap
  · rw [if_neg h3]
    exact (if_neg fun h => h3 h.2.1).symm
  rw [if_pos h3, Option.bind_some]
  dsimp only
  rw [← JsonNumber.exponent_eq, if_neg (by simp), scaleLoop_checked]
  change (if j.scaledExponent decimals < 0 then none else if j.scaledExponent decimals ≥ 18 then none
    else if |if j.negative then -j.mantissa else j.mantissa| * 10 ^ (j.scaledExponent decimals).toNat ≤
      UPPER_BOUND then some _ else none) = _
  have habs : |if j.negative then -j.mantissa else j.mantissa| = j.mantissa := by
    split_ifs
    · rw [abs_neg, abs_of_nonneg hM0]
    · rw [abs_of_nonneg hM0]
  rw [habs]
  split_ifs <;> first | rfl | (exfalso; omega)

/-! ## What `ParseFixedPoint` accepts -/

theorem mantissaLoop_rest {countPoint : Bool} {s : List Char} {mantissa : ℤ}
    {tzeros point_ofs : ℕ} {rest : List Char} {x : ℤ × ℕ × ℕ}
    (h : mantissaLoop countPoint s mantissa tzeros point_ofs = some (rest, x)) :
    s.dropWhile IsDigit = rest := by
  induction s generalizing mantissa tzeros point_ofs with
  | nil =>
    rw [mantissaLoop, Option.some.injEq, Prod.mk.injEq] at h
    exact h.1
  | cons c s ih =>
    rw [mantissaLoop] at h
    by_cases hc : IsDigit c = true
    · rw [if_pos hc] at h
      obtain ⟨⟨m, z⟩, -, h⟩ := Option.bind_eq_some_iff.mp h
      rw [List.dropWhile_cons_of_pos hc]
      exact ih h
    · rw [if_neg hc, Option.some.injEq, Prod.mk.injEq] at h
      rw [List.dropWhile_cons_of_neg (by simpa using hc)]
      exact h.1

theorem exponentLoop_rest {s : List Char} {exponent : ℤ} {rest : List Char} {x : ℤ}
    (h : exponentLoop s exponent = some (rest, x)) : s.dropWhile IsDigit = rest := by
  induction s generalizing exponent with
  | nil =>
    rw [exponentLoop, Option.some.injEq, Prod.mk.injEq] at h
    exact h.1
  | cons c s ih =>
    unfold exponentLoop at h
    split_ifs at h with hc
    · rw [List.dropWhile_cons_of_pos hc]
      exact ih h
    · rw [Option.some.injEq, Prod.mk.injEq] at h
      rw [List.dropWhile_cons_of_neg (by simpa using hc)]
      exact h.1

/-- A digit and the digits after it, as a nonempty run. -/
theorem IsDigits_takeWhile_cons {c : Char} (hc : IsDigit c = true) (s : List Char) :
    IsDigits ((c :: s).takeWhile IsDigit) :=
  ⟨by rw [List.takeWhile_cons_of_pos hc]; exact List.cons_ne_nil _ _, forall_IsDigit_takeWhile _⟩

theorem mantissaSign_shape (s : List Char) :
    s = (if (mantissaSign s).1 then ['-'] else []) ++ (mantissaSign s).2 := by
  unfold mantissaSign
  split <;> rfl

theorem parseIntegerPart_shape {s rest : List Char} {x : ℤ × ℕ}
    (h : parseIntegerPart s = some (rest, x)) : ∃ ip, IsIntPart ip ∧ s = ip ++ rest := by
  cases s with
  | nil => simp [parseIntegerPart] at h
  | cons c cs =>
    rw [parseIntegerPart] at h
    split_ifs at h with h0 h19
    · -- a single `0`
      rw [Option.some.injEq, Prod.mk.injEq] at h
      exact ⟨['0'], .inl rfl, by rw [h0, ← h.1]; rfl⟩
    · obtain ⟨⟨r, m, z, o⟩, hloop, hr⟩ := Option.map_eq_some_iff.mp h
      rw [Prod.mk.injEq] at hr
      have hc := IsDigit_of_one_le h19.1 h19.2
      refine ⟨(c :: cs).takeWhile IsDigit, .inr ⟨c, cs.takeWhile IsDigit,
        List.takeWhile_cons_of_pos hc, h19.1, h19.2, forall_IsDigit_takeWhile cs⟩, ?_⟩
      rw [← hr.1, ← mantissaLoop_rest hloop, List.takeWhile_append_dropWhile]

theorem parseFractionPart_shape {s : List Char} {mantissa : ℤ} {tzeros : ℕ} {rest : List Char}
    {x : ℤ × ℕ × ℕ} (h : parseFractionPart s mantissa tzeros = some (rest, x)) :
    ∃ f, (∀ ds ∈ f, IsDigits ds) ∧ s = JsonNumber.fracText f ++ rest := by
  unfold parseFractionPart at h
  split at h
  · rename_i cs
    split at h
    · rename_i c tail
      split_ifs at h with hc
      refine ⟨some ((c :: tail).takeWhile IsDigit), ?_, ?_⟩
      · rintro ds ⟨⟩
        exact IsDigits_takeWhile_cons hc tail
      · rw [JsonNumber.fracText, List.cons_append, ← mantissaLoop_rest h,
          List.takeWhile_append_dropWhile]
    · cases h
  · rw [Option.some.injEq, Prod.mk.injEq] at h
    exact ⟨none, by simp, by rw [h.1]; rfl⟩

theorem exponentSign_shape (cs : List Char) :
    ∃ sign : Option Char, (sign = none ∨ sign = some '+' ∨ sign = some '-') ∧
      cs = sign.toList ++ (exponentSign cs).2 := by
  unfold exponentSign
  split
  · exact ⟨some '+', .inr (.inl rfl), rfl⟩
  · exact ⟨some '-', .inr (.inr rfl), rfl⟩
  · exact ⟨none, .inl rfl, rfl⟩

theorem parseExponentPart_shape {s rest : List Char} {x : ℤ × Bool}
    (h : parseExponentPart s = some (rest, x)) :
    ∃ e : Option (Char × Option Char × List Char),
      (∀ y ∈ e, (y.1 = 'e' ∨ y.1 = 'E') ∧ (y.2.1 = none ∨ y.2.1 = some '+' ∨ y.2.1 = some '-') ∧
        IsDigits y.2.2) ∧ s = JsonNumber.expText e ++ rest := by
  unfold parseExponentPart at h
  split at h
  · rename_i c cs
    split_ifs at h with hmark
    · obtain ⟨sign, hsign, hcs⟩ := exponentSign_shape cs
      split at h
      · rename_i b d ds heq
        split_ifs at h with hd
        obtain ⟨⟨r, y⟩, hloop, hr⟩ := Option.map_eq_some_iff.mp h
        rw [Prod.mk.injEq] at hr
        rw [heq] at hcs
        refine ⟨some (c, sign, (d :: ds).takeWhile IsDigit), ?_, ?_⟩
        · rintro y ⟨⟩
          exact ⟨hmark, hsign, IsDigits_takeWhile_cons hd ds⟩
        · rw [JsonNumber.expText, List.cons_append, List.append_assoc, ← hr.1,
            ← exponentLoop_rest hloop, List.takeWhile_append_dropWhile, ← hcs]
      · cases h
    · rw [Option.some.injEq, Prod.mk.injEq] at h
      exact ⟨none, by simp, by rw [← h.1]; rfl⟩
  · rw [Option.some.injEq, Prod.mk.injEq] at h
    exact ⟨none, by simp, by rw [← h.1]; rfl⟩

/-- Whatever `ParseFixedPoint` accepts is the text of a JSON number. -/
theorem exists_of_ParseFixedPoint {s : List Char} {decimals v : ℤ}
    (h : ParseFixedPoint s decimals = some v) : ∃ j : JsonNumber, j.Valid ∧ j.text = s := by
  unfold ParseFixedPoint at h
  have hs := mantissaSign_shape s
  generalize mantissaSign s = p at h hs
  obtain ⟨sign, s1⟩ := p
  dsimp only at h hs
  simp only [Option.bind_eq_bind] at h
  obtain ⟨⟨s2, m, z⟩, hI, h⟩ := Option.bind_eq_some_iff.mp h
  obtain ⟨⟨s3, m', z', o⟩, hF, h⟩ := Option.bind_eq_some_iff.mp h
  obtain ⟨⟨s4, e, es⟩, hX, h⟩ := Option.bind_eq_some_iff.mp h
  dsimp only at h
  -- nothing is left after the exponent
  have hs4 : s4 = [] := by
    by_contra hne
    rw [if_pos hne] at h
    cases h
  subst hs4
  obtain ⟨ip, hip, rfl⟩ := parseIntegerPart_shape hI
  obtain ⟨f, hf, rfl⟩ := parseFractionPart_shape hF
  obtain ⟨x, hx, rfl⟩ := parseExponentPart_shape hX
  refine ⟨⟨sign, ip, f, x⟩, ⟨hip, hf, hx⟩, ?_⟩
  rw [hs, JsonNumber.text, List.append_nil]
  simp only [List.append_assoc]

/-! ## The mantissa of a JSON number -/

theorem mantissaOf_tzeros_le (st : ℤ × ℕ) (ds : List Char) :
    (mantissaOf st ds).2 ≤ st.2 + ds.length := by
  induction ds generalizing st with
  | nil => simp
  | cons c ds ih =>
    have hstep : (mantissaStep st c).2 ≤ st.2 + 1 := by
      unfold mantissaStep
      split_ifs <;> simp
    have := ih (mantissaStep st c)
    rw [mantissaOf_cons, List.length_cons]
    omega

/-- The mantissa keeps no trailing zero: they are all in `mantissa_tzeros`. -/
theorem mantissaOf_mod {st : ℤ × ℕ} {ds : List Char} (hds : ∀ c ∈ ds, IsDigit c = true)
    (h : st.1 = 0 ∨ st.1 % 10 ≠ 0) :
    (mantissaOf st ds).1 = 0 ∨ (mantissaOf st ds).1 % 10 ≠ 0 := by
  induction ds generalizing st with
  | nil => exact h
  | cons c ds ih =>
    apply ih (fun d hd => hds d (List.mem_cons_of_mem _ hd))
    unfold mantissaStep
    split_ifs with h0
    · exact h
    · -- a nonzero digit is the last digit of the new mantissa
      have hd := digitValue_pos (hds c (List.mem_cons_self ..)) h0
      have hd9 := (digitValue_bounds (hds c (List.mem_cons_self ..))).2
      right
      rw [pow_succ, ← mul_assoc]
      omega

/-- A mantissa that stays zero has counted every digit as a trailing zero. -/
theorem mantissaOf_tzeros_of_eq_zero {z : ℕ} {ds : List Char} (hds : ∀ c ∈ ds, IsDigit c = true)
    (h : (mantissaOf (0, z) ds).1 = 0) : (mantissaOf (0, z) ds).2 = z + ds.length := by
  induction ds generalizing z with
  | nil => simp
  | cons c ds ih =>
    have hc := hds c (List.mem_cons_self ..)
    have hds' : ∀ d ∈ ds, IsDigit d = true := fun d hd => hds d (List.mem_cons_of_mem _ hd)
    by_cases h0 : c = '0'
    · subst h0
      rw [mantissaOf_cons, show mantissaStep (0, z) '0' = (0, z + 1) from rfl] at h ⊢
      rw [ih hds' h, List.length_cons]
      omega
    · -- a nonzero digit makes the mantissa positive for good
      have hstep : (mantissaStep (0, z) c).1 = digitValue c := by
        simp [mantissaStep, h0]
      have hmono := @le_mantissaOf (mantissaStep (0, z) c) _ hds'
        (by rw [hstep]; exact (digitValue_bounds hc).1)
      rw [mantissaOf_cons] at h
      have := digitValue_pos hc h0
      omega

namespace JsonNumber

variable {j : JsonNumber}

theorem mantissa_nonneg (hj : j.Valid) : 0 ≤ j.mantissa :=
  le_mantissaOf (forall_IsDigit_significand hj) le_rfl

theorem mantissa_mod (hj : j.Valid) : j.mantissa = 0 ∨ j.mantissa % 10 ≠ 0 :=
  mantissaOf_mod (forall_IsDigit_significand hj) (.inl rfl)

/-- The significant digits are worth the integer part and the fraction read together. -/
theorem mantissa_mul_tzeros (j : JsonNumber) :
    j.mantissa * 10 ^ j.tzeros = readDigits (j.intPart ++ j.fracDigits) := by
  have h := mantissaOf_value (0, 0) j.significand
  rw [zero_mul, zero_mul, zero_add] at h
  rw [mantissa, tzeros, h, significand, intDigits]
  split_ifs with h0
  · rw [h0, List.nil_append, List.singleton_append, readDigits_cons, show digitValue '0' = 0 from rfl,
      zero_mul, zero_add]
  · rfl

/-- A zero mantissa comes from the integer part `0` and a fraction of zeros, all counted as
trailing zeros. -/
theorem tzeros_of_mantissa_eq_zero (hj : j.Valid) (h : j.mantissa = 0) :
    j.tzeros = j.fracDigits.length := by
  have hint : j.intPart = ['0'] := by
    rcases hj.1 with h0 | ⟨c, cs, hcs, h1, h9, -⟩
    · exact h0
    · -- a leading digit from `1` to `9` makes the mantissa positive
      have hc := IsDigit_of_one_le h1 h9
      have hc0 : c ≠ '0' := fun hc => absurd h1 (by rw [hc]; decide)
      have hne : j.intPart ≠ ['0'] := by simp [hcs, hc0]
      have hstep : (mantissaStep (0, 0) c).1 = digitValue c := by simp [mantissaStep, hc0]
      have hrest : ∀ d ∈ cs ++ j.fracDigits, IsDigit d = true := fun d hd =>
        forall_IsDigit_significand hj d (by
          rw [significand, intDigits, if_neg hne, hcs, List.cons_append]
          exact List.mem_cons_of_mem _ hd)
      have hmono := @le_mantissaOf (mantissaStep (0, 0) c) _ hrest
        (by rw [hstep]; exact (digitValue_bounds hc).1)
      rw [mantissa, significand, intDigits, if_neg hne, hcs, List.cons_append, mantissaOf_cons] at h
      have := digitValue_pos hc hc0
      omega
  have hsig : j.significand = j.fracDigits := by rw [significand, intDigits, if_pos hint, List.nil_append]
  have := mantissaOf_tzeros_of_eq_zero (forall_IsDigit_significand hj) h
  rw [tzeros, this, hsig, Nat.zero_add]


/-- The digits of the exponent are worth its absolute value. -/
theorem readDigits_expDigits (hj : j.Valid) : readDigits j.expDigits = |j.exponent| := by
  have hdig : ∀ c ∈ j.expDigits, IsDigit c = true := by
    unfold expDigits
    cases h : j.expPart with
    | none => simp
    | some x => exact (hj.2.2 x h).2.2.2
  have h0 := (readDigits_bounds hdig).1
  rw [exponent_eq]
  split_ifs
  · rw [abs_neg, abs_of_nonneg h0]
  · rw [abs_of_nonneg h0]

theorem fracDigits_length_le_fracText (j : JsonNumber) :
    j.fracDigits.length ≤ (fracText j.fracPart).length := by
  unfold fracDigits
  cases j.fracPart <;> simp [fracText]

theorem significand_length_le (j : JsonNumber) : j.significand.length ≤ j.text.length := by
  have hint : (intDigits j.intPart).length ≤ j.intPart.length := by
    unfold intDigits
    split_ifs <;> simp
  have hfrac := fracDigits_length_le_fracText j
  simp only [significand, text, List.length_append]
  omega

theorem fracDigits_length_le (j : JsonNumber) : j.fracDigits.length ≤ j.text.length := by
  have hfrac := fracDigits_length_le_fracText j
  simp only [text, List.length_append]
  omega

/-- The value, with the trailing zeros of the significant digits moved into the exponent. -/
theorem value_eq (j : JsonNumber) :
    j.value = ((if j.negative then -j.mantissa else j.mantissa : ℤ) : ℚ) *
      10 ^ (j.exponent - j.fracDigits.length + j.tzeros) := by
  rw [value, ← mantissa_mul_tzeros, zpow_add₀ (by norm_num), zpow_natCast]
  push_cast
  split_ifs <;> ring

theorem value_eq_zero_iff (j : JsonNumber) : j.value = 0 ↔ j.mantissa = 0 := by
  have h10 : (10 : ℚ) ^ (j.exponent - j.fracDigits.length + j.tzeros) ≠ 0 :=
    zpow_ne_zero _ (by norm_num)
  rw [value_eq]
  split_ifs <;> simp [h10]

/-- `v` is the value with `d` decimals exactly when it is the signed mantissa at the scaled
exponent. -/
theorem div_pow_eq_value_iff (j : JsonNumber) (d : ℕ) (v : ℤ) :
    (v : ℚ) / 10 ^ d = j.value ↔
      (v : ℚ) = ((if j.negative then -j.mantissa else j.mantissa : ℤ) : ℚ) *
        10 ^ j.scaledExponent d := by
  rw [div_eq_iff (by positivity), value_eq, scaledExponent, mul_assoc, ← zpow_natCast (10 : ℚ) d,
    ← zpow_add₀ (by norm_num)]

end JsonNumber

/-! ## The characterization -/

/-- An integer that is the rational `m * 10 ^ E`, for an `m` that is not a multiple of ten, has
`E ≥ 0`. -/
theorem eq_mul_ten_zpow {v m E : ℤ} (hm : m % 10 ≠ 0) (h : (v : ℚ) = m * 10 ^ E) :
    0 ≤ E ∧ v = m * 10 ^ E.toNat := by
  rcases le_or_gt 0 E with hE | hE
  · refine ⟨hE, ?_⟩
    rw [← Int.toNat_of_nonneg hE, zpow_natCast] at h
    exact_mod_cast h
  · -- otherwise `v * 10 ^ (-E) = m` would make `m` a multiple of ten
    exfalso
    obtain ⟨k, hk⟩ : ∃ k : ℕ, -E = k + 1 := ⟨(-E - 1).toNat, by omega⟩
    have hq : (v : ℚ) * 10 ^ (k + 1) = m := by
      have hsum : E + ((k + 1 : ℕ) : ℤ) = 0 := by push_cast; omega
      rw [h, mul_assoc, ← zpow_natCast, ← zpow_add₀ (by norm_num), hsum, zpow_zero, mul_one]
    have hz : v * 10 ^ (k + 1) = m := by exact_mod_cast hq
    apply hm
    rw [← hz, pow_succ, ← mul_assoc]
    exact Int.mul_emod_left _ _

namespace JsonNumber

variable {j : JsonNumber}

/-- The closed form of `ParseFixedPoint_text` gives `v` exactly when `v` is the number with `d`
decimals, within `UPPER_BOUND`, and a zero has its scaled exponent in `[0, 18)`. -/
theorem closedForm_eq_some_iff (hj : j.Valid) {d : ℕ} (hd : d ≤ 17) (hs : j.text.length < 2 ^ 31)
    (v : ℤ) :
    (if j.mantissa ≤ UPPER_BOUND ∧ readDigits j.expDigits ≤ UPPER_BOUND ∧
          0 ≤ j.scaledExponent d ∧ j.scaledExponent d < 18 ∧
          j.mantissa * 10 ^ (j.scaledExponent d).toNat ≤ UPPER_BOUND then
        some ((if j.negative then -j.mantissa else j.mantissa) * 10 ^ (j.scaledExponent d).toNat)
      else none) = some v ↔
      (v : ℚ) / 10 ^ d = j.value ∧ |v| ≤ UPPER_BOUND ∧
        (j.value = 0 → 0 ≤ j.exponent + d ∧ j.exponent + d < 18) := by
  have hM0 := mantissa_nonneg hj
  have habs : |if j.negative then -j.mantissa else j.mantissa| = j.mantissa := by
    split_ifs
    · rw [abs_neg, abs_of_nonneg hM0]
    · rw [abs_of_nonneg hM0]
  have hE : j.scaledExponent d = j.exponent - j.fracDigits.length + j.tzeros + d := rfl
  have hz : j.tzeros ≤ j.significand.length :=
    (mantissaOf_tzeros_le (0, 0) j.significand).trans_eq (Nat.zero_add _)
  have hzlen := j.significand_length_le
  have hplen := j.fracDigits_length_le
  have hU := UPPER_BOUND_eq
  rw [Option.ite_none_right_eq_some, Option.some.injEq, div_pow_eq_value_iff, value_eq_zero_iff,
    readDigits_expDigits hj, abs_le]
  constructor
  · rintro ⟨⟨hM, hX, hE0, hE18, hMU⟩, rfl⟩
    refine ⟨?_, ?_, fun h0 => ?_⟩
    · push_cast
      rw [← zpow_natCast, Int.toNat_of_nonneg hE0]
    · rw [abs_mul, habs, abs_pow, abs_of_pos (by norm_num : (0 : ℤ) < 10)]
      exact hMU
    · -- a zero mantissa counts every digit of the fraction as a trailing zero
      have := tzeros_of_mantissa_eq_zero hj h0
      omega
  · rintro ⟨hv, hvU, hzero⟩
    rcases mantissa_mod hj with h0 | h10
    · -- zero: the amount is `0`, and its exponent is the written one
      have htz := tzeros_of_mantissa_eq_zero hj h0
      obtain ⟨he0, he18⟩ := hzero h0
      have hv0 : v = 0 := by
        rw [h0] at hv
        simpa using hv
      subst hv0
      refine ⟨⟨by omega, ⟨by omega, by omega⟩, by omega, by omega, by rw [h0, zero_mul]; omega⟩, ?_⟩
      rw [h0]
      simp
    · -- otherwise the scaled exponent is not negative, and the bound on `v` bounds the rest
      have hσ : (if j.negative then -j.mantissa else j.mantissa) % 10 ≠ 0 := by
        split_ifs <;> omega
      obtain ⟨hE0, rfl⟩ := eq_mul_ten_zpow hσ hv
      have hMU : j.mantissa * 10 ^ (j.scaledExponent d).toNat ≤ UPPER_BOUND := by
        rw [abs_mul, habs, abs_pow, abs_of_pos (by norm_num : (0 : ℤ) < 10)] at hvU
        exact hvU
      have hM1 : 1 ≤ j.mantissa := by omega
      have hpow : (10 : ℤ) ^ (j.scaledExponent d).toNat ≤ j.mantissa * 10 ^ (j.scaledExponent d).toNat :=
        le_mul_of_one_le_left (by positivity) hM1
      have hlt : (j.scaledExponent d).toNat < 18 :=
        (pow_lt_pow_iff_right₀ (by norm_num : (1 : ℤ) < 10)).mp (by rw [hU] at hMU; norm_num; omega)
      have hMle : j.mantissa ≤ j.mantissa * 10 ^ (j.scaledExponent d).toNat :=
        le_mul_of_one_le_right hM0 (one_le_pow₀ (by norm_num))
      exact ⟨⟨by omega, ⟨by omega, by omega⟩, hE0, by omega, hMU⟩, rfl⟩

end JsonNumber

/-- `ParseFixedPoint` accepts exactly the JSON numbers which, with `d` decimals, are integers
within `UPPER_BOUND`, except the zeros whose scaled exponent falls outside `[0, 18)`. -/
theorem ParseFixedPoint_iff {s : List Char} {d : ℕ} (hd : d ≤ 17) (hs : s.length < 2 ^ 31) (v : ℤ) :
    ParseFixedPoint s d = some v ↔
      ∃ j : JsonNumber, j.Valid ∧ j.text = s ∧ (v : ℚ) / 10 ^ d = j.value ∧ |v| ≤ UPPER_BOUND ∧
        (j.value = 0 → 0 ≤ j.exponent + d ∧ j.exponent + d < 18) := by
  constructor
  · intro h
    obtain ⟨j, hj, rfl⟩ := exists_of_ParseFixedPoint h
    rw [ParseFixedPoint_text j hj] at h
    exact ⟨j, hj, rfl, (JsonNumber.closedForm_eq_some_iff hj hd hs v).mp h⟩
  · rintro ⟨j, hj, rfl, hden⟩
    rw [ParseFixedPoint_text j hj]
    exact (JsonNumber.closedForm_eq_some_iff hj hd hs v).mpr hden

example : ParseFixedPoint "0.00000001".toList 8 = some 1 := by decide
example : ParseFixedPoint "-1.5e3".toList 2 = some (-150000) := by decide
example : ParseFixedPoint "01".toList 8 = none := by decide

end HydraNode
