import HydraNode.Contract.Block
import HydraNode.Util.FixedPoint

/-!
# Amounts as decimal strings

`FormatMoney` and `ParseMoney` (`util/moneystr.cpp`) write and read an amount of units, `COIN`
of them to a coin. `FormatMoney` writes the quotient by `COIN`, a point, and the remainder in
eight digits, and then trims the zeros at the end beyond the second digit after the point: its
loop compares each character with the one two places before it, which is a digit up to the
second digit after the point and the point itself there. `ParseMoney` skips leading spaces,
reads the digits of the whole part up to a point or a space, at most eight digits after the
point, and accepts only spaces after them.

Every amount from `0` to below `10 ^ 18` units reads back as itself (`ParseMoney_FormatMoney`),
in particular every amount in `[0, MAX_MONEY]`.

`CAmount` is `int64_t`; its arithmetic here does not overflow, and it is modelled as `ℤ`. The
`std::string` is read through `c_str()`, up to its first NUL. `atoi64` is `strtoll` of the C
library, which is not part of the repository; on the at most ten digits it is given here it is
their value.

## Main definitions

* `trimCount`, `FormatMoney`
* `parseMoneyFraction`, `parseMoneyWhole`, `ParseMoney`

## Main results

* `FormatMoney_eq` — what `FormatMoney` writes of an amount that is not negative
* `ParseMoney_digits_point` — what `ParseMoney` reads of digits, a point and digits
* `ParseMoney_FormatMoney` — the round trip
-/

namespace HydraNode

/-! ## The source -/

/-- `strprintf("%08d", remainder)` of a value that is not negative: its digits, padded with zeros
to eight. -/
def pad08 (remainder : ℕ) : List Char :=
  List.replicate (8 - (decimalStr remainder).length) '0' ++ decimalStr remainder

/-- The loop `for (int i = str.size()-1; (str[i] == '0' && IsDigit(str[i-2])); --i)` of
`FormatMoney`: how often it runs from the index `i`. Below the index `2` the source would read
before the string; on the strings of `FormatMoney` the loop stops at the point before that. -/
def trimCount (str : List Char) : ℕ → ℕ
  | i + 2 =>
    if str.getD (i + 2) ' ' = '0' ∧ IsDigit (str.getD i ' ') then trimCount str (i + 1) + 1 else 0
  | _ => 0

/-- `FormatMoney`. -/
def FormatMoney (n : CAmount) : List Char :=
  let n_abs := if n > 0 then n else -n
  let quotient := n_abs.tdiv COIN
  let remainder := n_abs.tmod COIN
  let str := decimalStr quotient.toNat ++ '.' :: pad08 remainder.toNat
  let nTrim := trimCount str (str.length - 1)
  let str := if nTrim ≠ 0 then str.take (str.length - nTrim) else str
  if n < 0 then '-' :: str else str

/-- The loop after the point: `while (IsDigit(*p) && (nMult > 0))`. It returns `nUnits` and what
`p` points at. -/
def parseMoneyFraction (nMult nUnits : ℤ) : List Char → ℤ × List Char
  | [] => (nUnits, [])
  | c :: cs =>
    if IsDigit c && decide (0 < nMult) then
      parseMoneyFraction (nMult.tdiv 10) (nUnits + nMult * digitValue c) cs
    else (nUnits, c :: cs)

/-- The loop `for (; *p; p++)` of `ParseMoney` over the whole part: the digits before the point
or a space, `nUnits`, and what `p` points at when the loop ends; `none` where it returns
`false`. -/
def parseMoneyWhole (strWhole : List Char) : List Char → Option (List Char × ℤ × List Char)
  | [] => some (strWhole, 0, [])
  | c :: cs =>
    if c = '.' then
      match parseMoneyFraction (COIN / 10) 0 cs with
      | (nUnits, p) => some (strWhole, nUnits, p)
    else if IsSpace c then some (strWhole, 0, c :: cs)
    else if !IsDigit c then none
    else parseMoneyWhole (strWhole ++ [c]) cs

/-- `ParseMoney`; `none` where it returns `false`. -/
def ParseMoney (str : List Char) : Option CAmount :=
  let p := (str.takeWhile fun c => c != '\x00').dropWhile IsSpace
  match parseMoneyWhole [] p with
  | none => none
  | some (strWhole, nUnits, p) =>
    if !p.all IsSpace then none
    -- guard against 63 bit overflow
    else if strWhole.length > 10 then none
    else if nUnits < 0 ∨ nUnits > COIN then none
    else
      let nWhole := readDigits strWhole
      some (nWhole * COIN + nUnits)

/-! ## Writing -/

/-- The trim loop runs at most up to its index, over zeros. -/
theorem trimCount_spec (str : List Char) :
    ∀ i, trimCount str i ≤ i ∧ ∀ k < trimCount str i, str.getD (i - k) ' ' = '0'
  | 0 => by simp [trimCount]
  | 1 => by simp [trimCount]
  | i + 2 => by
    rw [trimCount]
    split_ifs with h
    · obtain ⟨hle, hzero⟩ := trimCount_spec str (i + 1)
      refine ⟨by omega, fun k hk => ?_⟩
      rcases k with _ | k
      · exact h.1
      · rw [show i + 2 - (k + 1) = i + 1 - k by omega]
        exact hzero k (by omega)
    · simp

/-- A string whose last `t` characters are zeros is what is left after trimming them, and
`t` zeros. -/
theorem eq_take_append_replicate {str : List Char} {t : ℕ} (ht : t ≤ str.length)
    (hz : ∀ k < t, str.getD (str.length - 1 - k) ' ' = '0') :
    str = str.take (str.length - t) ++ List.replicate t '0' := by
  conv_lhs => rw [← List.take_append_drop (str.length - t) str]
  congr 1
  rw [List.eq_replicate_iff]
  refine ⟨by simp; omega, fun c hc => ?_⟩
  obtain ⟨m, hm, rfl⟩ := List.getElem_of_mem hc
  rw [List.length_drop] at hm
  have h := hz (t - 1 - m) (by omega)
  rw [List.getD_eq_getElem _ _ (by omega)] at h
  rw [List.getElem_drop, ← h]
  congr 1
  omega

/-- What `FormatMoney` writes of an amount that is not negative: the quotient, the point, and
the eight digits of the remainder but for `t` zeros at their end. -/
theorem FormatMoney_eq {n : ℤ} (hn : 0 ≤ n) :
    ∃ t ≤ 8, FormatMoney n =
        decimalStr (n / COIN).toNat ++ '.' :: (pad08 (n % COIN).toNat).take (8 - t) ∧
      (pad08 (n % COIN).toNat).drop (8 - t) = List.replicate t '0' := by
  have hr : (n % COIN).toNat < 10 ^ 8 := by
    have := Int.emod_lt_of_pos n (by decide : (0 : ℤ) < COIN)
    have hC : @Eq ℤ COIN 100000000 := rfl
    omega
  have hlen : (pad08 (n % COIN).toNat).length = 8 := (padded_spec hr (by norm_num)).1
  set w := decimalStr (n / COIN).toNat
  set ds := pad08 (n % COIN).toNat
  set str := w ++ '.' :: ds with hstr
  have hL : str.length = w.length + 9 := by simp [str, hlen]
  obtain ⟨hle, hzero⟩ := trimCount_spec str (str.length - 1)
  set t := trimCount str (str.length - 1)
  -- the trimmed characters are zeros, and the point is not one of them
  have hdot : str.getD w.length ' ' = '.' := by simp [str]
  have ht : t ≤ 8 := by
    by_contra h8
    have := hzero 8 (by omega)
    rw [show str.length - 1 - 8 = w.length by omega, hdot] at this
    exact absurd this (by decide)
  have htrim := @eq_take_append_replicate str t (by omega) hzero
  have htake : str.take (str.length - t) = w ++ '.' :: ds.take (8 - t) := by
    rw [hL, hstr, List.take_append, List.take_of_length_le (by omega),
      show w.length + 9 - t - w.length = 8 - t + 1 by omega, List.take_succ_cons]
  refine ⟨t, ht, ?_, ?_⟩
  · have habs : (if n > 0 then n else -n) = n := by split_ifs <;> omega
    unfold FormatMoney
    simp only [habs, Int.tdiv_eq_ediv_of_nonneg hn, Int.tmod_eq_emod_of_nonneg hn,
      if_neg (not_lt.mpr hn)]
    change (if t ≠ 0 then str.take (str.length - t) else str) = _
    split_ifs with h0
    · exact htake
    · rw [not_not.mp h0, Nat.sub_zero, List.take_of_length_le hlen.le]
  · -- comparing the string with its trimmed form and the zeros
    rw [htake, hstr, List.append_assoc, List.cons_append] at htrim
    have hds := List.append_cancel_left htrim
    rw [List.cons_inj_right] at hds
    conv_lhs => rw [hds]
    rw [List.drop_left' (by rw [List.length_take, hlen]; omega)]

/-! ## Reading -/

theorem readDigits_append (ds es : List Char) :
    readDigits (ds ++ es) = readDigits ds * 10 ^ es.length + readDigits es := by
  rw [readDigits, List.foldl_append, foldl_readDigits]
  rfl

/-- Zeros at the end shift the value. -/
theorem readDigits_append_replicate_zero (ds : List Char) (t : ℕ) :
    readDigits (ds ++ List.replicate t '0') = readDigits ds * 10 ^ t := by
  have h := readDigits_replicate_zero_append t []
  rw [List.append_nil, show readDigits [] = 0 from rfl] at h
  rw [readDigits_append, h, List.length_replicate, add_zero]

/-- After the point, from `nMult = 10 ^ k`, up to `k + 1` digits are read as that many
decimals of `10 ^ (k + 1)`. -/
theorem parseMoneyFraction_digits {ds : List Char} (hds : ∀ c ∈ ds, IsDigit c = true) {k : ℕ}
    (hk : ds.length ≤ k + 1) (nUnits : ℤ) :
    parseMoneyFraction (10 ^ k) nUnits ds =
      (nUnits + readDigits ds * 10 ^ (k + 1 - ds.length), []) := by
  induction ds generalizing k nUnits with
  | nil => simp [parseMoneyFraction, readDigits]
  | cons c ds ih =>
    have hc := hds c (List.mem_cons_self ..)
    have hds' : ∀ d ∈ ds, IsDigit d = true := fun d hd => hds d (List.mem_cons_of_mem _ hd)
    have hk' : ds.length ≤ k := by
      rw [List.length_cons] at hk
      omega
    rw [parseMoneyFraction, if_pos (by simp [hc])]
    rcases k with _ | k
    · -- the last decimal: nothing may follow it
      obtain rfl : ds = [] := List.eq_nil_of_length_eq_zero (by omega)
      simp [parseMoneyFraction, readDigits]
    · rw [tdiv_ten_pow_succ, ih hds' (by omega), readDigits_cons, List.length_cons]
      congr 1
      rw [show k + 1 + 1 - (ds.length + 1) = k + 1 - ds.length by omega]
      have hpow : (10 : ℤ) ^ (k + 1) = 10 ^ ds.length * 10 ^ (k + 1 - ds.length) := by
        rw [← pow_add, Nat.add_sub_cancel' hk']
      rw [hpow]
      ring

/-- The loop over the whole part keeps the digits up to the point, then reads the fraction. -/
theorem parseMoneyWhole_digits_point {ws : List Char} (hws : ∀ c ∈ ws, IsDigit c = true)
    (acc rest : List Char) :
    parseMoneyWhole acc (ws ++ '.' :: rest) =
      some (acc ++ ws, (parseMoneyFraction (COIN / 10) 0 rest).1,
        (parseMoneyFraction (COIN / 10) 0 rest).2) := by
  induction ws generalizing acc with
  | nil => simp [parseMoneyWhole]
  | cons c ws ih =>
    obtain ⟨hspace, hpoint⟩ := IsSpace_of_IsDigit (hws c (List.mem_cons_self ..))
    rw [List.cons_append, parseMoneyWhole, if_neg hpoint, if_neg (by simp [hspace]),
      if_neg (by simp [hws c (List.mem_cons_self ..)]),
      ih (fun c hc => hws c (List.mem_cons_of_mem _ hc)), List.append_assoc, List.singleton_append]

/-- `ParseMoney` of up to ten digits, the point, and up to eight digits: the whole part in coins
and the digits after the point as the first decimals of a coin. -/
theorem ParseMoney_digits_point {ws fs : List Char} (hws : ∀ c ∈ ws, IsDigit c = true)
    (hne : ws ≠ []) (hwlen : ws.length ≤ 10) (hfs : ∀ c ∈ fs, IsDigit c = true)
    (hflen : fs.length ≤ 8) :
    ParseMoney (ws ++ '.' :: fs) = some (readDigits ws * COIN + readDigits fs * 10 ^ (8 - fs.length)) := by
  have hall : ∀ c ∈ ws ++ '.' :: fs, c != '\x00' := by
    intro c hc
    rcases List.mem_append.mp hc with hc | hc
    · exact bne_iff_ne.mpr fun h => absurd (hws c hc) (by rw [h]; decide)
    · rcases List.mem_cons.mp hc with rfl | hc
      · decide
      · exact bne_iff_ne.mpr fun h => absurd (hfs c hc) (by rw [h]; decide)
  obtain ⟨c, ws', rfl⟩ := List.exists_cons_of_ne_nil hne
  have hspace := (IsSpace_of_IsDigit (hws c (List.mem_cons_self ..))).1
  have hfrac : parseMoneyFraction (COIN / 10) 0 fs = (readDigits fs * 10 ^ (8 - fs.length), []) := by
    rw [show COIN / 10 = 10 ^ 7 from rfl, parseMoneyFraction_digits hfs (by omega), zero_add]
  obtain ⟨hf0, hf⟩ := readDigits_bounds hfs
  have hunits : readDigits fs * 10 ^ (8 - fs.length) ≤ COIN := by
    have hmul : readDigits fs * 10 ^ (8 - fs.length) < 10 ^ fs.length * 10 ^ (8 - fs.length) :=
      mul_lt_mul_of_pos_right hf (by positivity)
    rw [← pow_add, Nat.add_sub_cancel' hflen] at hmul
    exact hmul.le
  have hunits0 : 0 ≤ readDigits fs * 10 ^ (8 - fs.length) := mul_nonneg hf0 (by positivity)
  unfold ParseMoney
  dsimp only
  rw [List.takeWhile_eq_self_iff.mpr hall, List.cons_append,
    List.dropWhile_cons_of_neg (by simp [hspace]), ← List.cons_append,
    parseMoneyWhole_digits_point hws, hfrac]
  simp only [List.nil_append, List.all_nil, Bool.not_true, Bool.false_eq_true, if_false]
  rw [if_neg (by omega), if_neg (by omega)]

/-! ## The round trip -/

theorem decimalStr_ne_nil (n : ℕ) : decimalStr n ≠ [] := by
  rw [decimalStr]
  split_ifs <;> simp

/-- Every amount from `0` to below `10 ^ 18` units reads back as itself. -/
theorem ParseMoney_FormatMoney {n : ℤ} (h0 : 0 ≤ n) (h : n < 10 ^ 18) :
    ParseMoney (FormatMoney n) = some n := by
  have hC : @Eq ℤ COIN 100000000 := rfl
  have hq0 := Int.ediv_nonneg h0 (by decide : (0 : ℤ) ≤ COIN)
  have hr0 := Int.emod_nonneg n (by decide : COIN ≠ 0)
  have hrC := Int.emod_lt_of_pos n (by decide : (0 : ℤ) < COIN)
  -- the quotient has at most ten digits, the remainder at most eight
  have hq : (n / COIN).toNat < 10 ^ 10 := by
    have : n / COIN < 10 ^ 10 := by
      rw [Int.ediv_lt_iff_lt_mul (by decide), hC]
      omega
    omega
  have hr : (n % COIN).toNat < 10 ^ 8 := by omega
  obtain ⟨t, ht, hfmt, hzeros⟩ := FormatMoney_eq h0
  set ds := pad08 (n % COIN).toNat
  obtain ⟨hlen, hdig, hval⟩ : ds.length = 8 ∧ (∀ c ∈ ds, IsDigit c = true) ∧
      readDigits ds = (n % COIN).toNat := padded_spec hr (by norm_num)
  have hds : ds = ds.take (8 - t) ++ List.replicate t '0' := by
    rw [← hzeros, List.take_append_drop]
  have hflen : (ds.take (8 - t)).length = 8 - t := by
    rw [List.length_take]
    exact min_eq_left (hlen.symm ▸ Nat.sub_le 8 t)
  rw [hfmt, ParseMoney_digits_point (forall_IsDigit_decimalStr _) (decimalStr_ne_nil _)
    (length_decimalStr_le (by norm_num) hq) (fun c hc => hdig c (List.mem_of_mem_take hc))
    (by omega), hflen, show 8 - (8 - t) = t by omega, ← readDigits_append_replicate_zero, ← hds,
    readDigits_decimalStr, hval, Int.toNat_of_nonneg hq0, Int.toNat_of_nonneg hr0,
    Int.ediv_mul_add_emod]

theorem MAX_MONEY_lt_ten_pow_18 : MAX_MONEY < 10 ^ 18 := by
  norm_num [MAX_MONEY, COIN]

end HydraNode
