import HydraNode.Serialize

/-!
# Script numbers

`CScriptNum` (`script/script.h`) writes an integer as its magnitude in little-endian bytes, in
as few bytes as the sign allows: the sign is the high bit of the last byte, and a magnitude
whose last byte already uses that bit gets one more byte, `0x00` or `0x80`. Reading back
(`set_vch`) ORs the bytes into an `int64_t` and, when the sign bit is set, clears it and
negates. The constructor that reads a script number rejects vectors longer than
`nMaxNumSize` and, with `fRequireMinimal`, every vector with a redundant last byte. Qtum reads
gas limits and prices with its own `vch_to_uint64`, which rejects the sign bit.

`serialize` writes every `int64_t` other than `INT64_MIN` in at most eight bytes, and the
constructor with `nMaxNumSize = 8` reads it back; every vector of at most eight bytes the
constructor accepts is what `serialize` writes of its value (`serialize_CScriptNum_roundtrip`).
Past eight bytes the reading loop shifts a byte by `64` or more, which C++ leaves undefined; on
`UInt64` the shift count is taken modulo `64`, and a nine-byte vector then reads as a value
whose encoding is shorter (`set_vch_nine_bytes`).

## Main definitions

* `CScriptNum.absBytes`, `CScriptNum.serialize`
* `CScriptNum.orLoop`, `CScriptNum.set_vch`, `CScriptNum.ofVch`, `CScriptNum.vch_to_uint64`

## Main results

* `CScriptNum.absBytes_readLE` — the bytes of a magnitude are its shortest little-endian form
* `CScriptNum.set_vch_concat` — what `set_vch` reads from a vector of at most eight bytes
* `CScriptNum.length_serialize_le_iff` — `serialize` writes at most `k` bytes exactly when the
  magnitude has at most `8 * k - 1` bits
* `CScriptNum.ofVch_serialize`, `CScriptNum.serialize_ofVch`,
  `CScriptNum.vch_to_uint64_serialize` — the two directions, and the gas reader
* `CScriptNum.serialize_CScriptNum_roundtrip`
-/

namespace HydraNode

namespace CScriptNum

/-! ## Writing -/

/-- The loop of `serialize`: the bytes of `absvalue`, least significant first, until nothing is
left. -/
def absBytes (absvalue : ℕ) : List UInt8 :=
  if absvalue = 0 then [] else UInt8.ofNat (absvalue &&& 0xff) :: absBytes (absvalue >>> 8)
termination_by absvalue
decreasing_by
  rw [Nat.shiftRight_eq_div_pow]
  omega

/-- `CScriptNum::serialize`. `uint64_t absvalue = neg ? -value : value` is the magnitude of
`value`, also for `INT64_MIN`, whose negation wraps to itself. -/
def serialize (value : ℤ) : List UInt8 :=
  if value = 0 then []
  else
    let neg := decide (value < 0)
    let result := absBytes value.natAbs
    if result.getLastD 0 &&& 0x80 ≠ 0 then result ++ [if neg then 0x80 else 0]
    else if neg then result.dropLast ++ [result.getLastD 0 ||| 0x80]
    else result

/-! ## Reading -/

/-- The loop of `set_vch` and `vch_to_uint64`: `result |= vch[i] << 8*i`. C++ leaves a shift by
`64` or more undefined; `<<<` on `UInt64` takes the count modulo `64`, as x86 does. -/
def orLoop (result : UInt64) (i : ℕ) : List UInt8 → UInt64
  | [] => result
  | b :: bs => orLoop (result ||| b.toUInt64 <<< UInt64.ofNat (8 * i)) (i + 1) bs

/-- `CScriptNum::set_vch`: the bytes as an `int64_t`, negated with the sign bit cleared when the
last byte has it. -/
def set_vch (vch : List UInt8) : ℤ :=
  if vch.isEmpty then 0
  else
    let result := orLoop 0 0 vch
    if vch.getLastD 0 &&& 0x80 ≠ 0 then
      toInt64 (-toInt64
        (result &&& ~~~((0x80 : UInt64) <<< UInt64.ofNat (8 * (vch.length - 1)))).toNat)
    else toInt64 result.toNat

/-- The constructor `CScriptNum(vch, fRequireMinimal, nMaxNumSize)`: the value it holds, or the
text of the `scriptnum_error` it throws. A last byte without value bits is redundant, unless the
byte before it uses the sign bit. -/
def ofVch (vch : List UInt8) (fRequireMinimal : Bool) (nMaxNumSize : ℕ) : Except String ℤ :=
  if nMaxNumSize < vch.length then .error "script number overflow"
  else if fRequireMinimal = true ∧ vch ≠ [] ∧ vch.getLastD 0 &&& 0x7f = 0 ∧
      (vch.length ≤ 1 ∨ vch.getD (vch.length - 2) 0 &&& 0x80 = 0) then
    .error "non-minimally encoded script number"
  else .ok (set_vch vch)

/-- `CScriptNum::vch_to_uint64`, the reader of gas limits and gas prices. -/
def vch_to_uint64 (vch : List UInt8) : Except String UInt64 :=
  if 8 < vch.length then .error "script number overflow"
  else if vch.isEmpty then .ok 0
  else
    let result := orLoop 0 0 vch
    if vch.getLastD 0 &&& 0x80 ≠ 0 then .error "Negative gas value." else .ok result

/-! ## Bytes and little-endian values -/

theorem and_0x7F_of_lt {b : UInt8} (hb : b.toNat < 128) : b &&& 0x7f = b := by
  apply UInt8.toNat_inj.mp
  rw [toNat_and_0x7F, Nat.mod_eq_of_lt hb]

theorem toNat_or_0x80 {b : UInt8} (hb : b.toNat < 128) : (b ||| 0x80).toNat = b.toNat + 128 := by
  have h := toNat_ofNat_or_0x80 hb
  rwa [UInt8.ofNat_toNat] at h

/-- Setting the sign bit again on the value bits of a byte that had it gives the byte. -/
theorem and_0x7F_or_0x80 {b : UInt8} (hb : 128 ≤ b.toNat) : (b &&& 0x7f) ||| 0x80 = b := by
  apply UInt8.toNat_inj.mp
  have hlt : (b &&& 0x7f).toNat < 128 := by
    rw [toNat_and_0x7F]
    omega
  rw [toNat_or_0x80 hlt, toNat_and_0x7F]
  have := b.toNat_lt
  omega

theorem toNat_eq_zero_iff {b : UInt8} : b.toNat = 0 ↔ b = 0 := by
  rw [← UInt8.toNat_inj]
  rfl

/-- A value between `2 ^ a` and `2 ^ b` is under `2 ^ c` exactly when a condition holds that
puts `c` above `b`, and whose failure puts `c` below `a`. -/
theorem lt_two_pow_iff_of_between {m a b c : ℕ} {P : Prop} (hlo : 2 ^ a ≤ m) (hhi : m < 2 ^ b)
    (h₁ : P → b ≤ c) (h₂ : ¬P → c ≤ a) : P ↔ m < 2 ^ c := by
  by_cases hP : P
  · exact iff_of_true hP (hhi.trans_le (Nat.pow_le_pow_right (by norm_num) (h₁ hP)))
  · exact iff_of_false hP (not_lt.mpr ((Nat.pow_le_pow_right (by norm_num) (h₂ hP)).trans hlo))

/-- The default of `getLastD` is not read on a non-empty list. -/
theorem getLastD_of_ne_nil {l : List UInt8} (h : l ≠ []) (a b : UInt8) :
    l.getLastD a = l.getLastD b := by
  rw [List.getLastD_eq_getLast?, List.getLastD_eq_getLast?, List.getLast?_eq_some_getLast h]
  rfl

theorem readLE_append_singleton (l : List UInt8) (b : UInt8) :
    readLE (l ++ [b]) = readLE l + 256 ^ l.length * b.toNat := by
  induction l with
  | nil => simp [readLE_cons]
  | cons a l ih =>
    rw [List.cons_append, readLE_cons, readLE_cons, ih, List.length_cons, pow_succ]
    ring

theorem absBytes_eq (m : ℕ) :
    absBytes m = if m = 0 then [] else UInt8.ofNat (m % 256) :: absBytes (m / 256) := by
  rw [absBytes, Nat.shiftRight_eq_div_pow, show (0xff : ℕ) = 2 ^ 8 - 1 from rfl,
    Nat.and_two_pow_sub_one_eq_mod]

theorem readLE_absBytes (m : ℕ) : readLE (absBytes m) = m := by
  induction m using Nat.strong_induction_on with
  | _ m ih =>
    rw [absBytes_eq]
    split_ifs with hm
    · simp [hm]
    · rw [readLE_cons, ih _ (by omega), UInt8.toNat_ofNat']
      omega

theorem absBytes_eq_nil_iff {m : ℕ} : absBytes m = [] ↔ m = 0 := by
  rw [absBytes_eq]
  split_ifs with hm <;> simp [hm]

/-- The last byte of a non-zero magnitude is not zero. -/
theorem getLastD_absBytes_ne_zero {m : ℕ} (hm : m ≠ 0) : (absBytes m).getLastD 0 ≠ 0 := by
  induction m using Nat.strong_induction_on with
  | _ m ih =>
    rw [absBytes_eq, if_neg hm, List.getLastD_cons]
    by_cases hsmall : m / 256 = 0
    · rw [absBytes_eq_nil_iff.mpr hsmall, List.getLastD_nil]
      intro h0
      have := congrArg UInt8.toNat h0
      rw [UInt8.toNat_ofNat'] at this
      simp at this
      omega
    · have hne : absBytes (m / 256) ≠ [] := fun h => hsmall (absBytes_eq_nil_iff.mp h)
      rw [getLastD_of_ne_nil hne _ 0]
      exact ih _ (by omega) hsmall

theorem readLE_append_zero (l : List UInt8) : readLE (l ++ [0]) = readLE l := by
  rw [readLE_append_singleton]
  simp

theorem two_pow_eight_mul (n : ℕ) : 2 ^ (8 * n) = 256 ^ n := by
  rw [pow_mul]
  norm_num

/-- A little-endian value lies between its last byte and the next byte up, at the weight of the
last position. -/
theorem readLE_concat_bounds (init : List UInt8) (b : UInt8) :
    2 ^ (8 * init.length) * b.toNat ≤ readLE (init ++ [b]) ∧
      readLE (init ++ [b]) < 2 ^ (8 * init.length) * (b.toNat + 1) := by
  have hlt := readLE_lt init
  rw [readLE_append_singleton, ← two_pow_eight_mul] at *
  rw [Nat.mul_succ]
  omega

theorem readLE_ne_zero {l : List UInt8} (hl : l.getLastD 0 ≠ 0) : readLE l ≠ 0 := by
  rcases List.eq_nil_or_concat' l with rfl | ⟨init, b, rfl⟩
  · exact absurd List.getLastD_nil hl
  · rw [List.getLastD_concat] at hl
    have hb : 0 < b.toNat := Nat.pos_of_ne_zero (mt toNat_eq_zero_iff.mp hl)
    have hpow : 0 < 2 ^ (8 * init.length) := Nat.two_pow_pos _
    have := (readLE_concat_bounds init b).1
    have : 0 < 2 ^ (8 * init.length) * b.toNat := Nat.mul_pos hpow hb
    omega

/-- A byte list with a non-zero last byte is the magnitude bytes of its value: `absBytes` writes
the shortest little-endian form. -/
theorem absBytes_readLE {l : List UInt8} (hl : l.getLastD 0 ≠ 0) : absBytes (readLE l) = l := by
  induction l with
  | nil => exact absurd List.getLastD_nil hl
  | cons a t ih =>
    -- the tail is either empty or again ends in a non-zero byte
    have htail : absBytes (readLE t) = t ∧ (t = [] → a ≠ 0) ∧ (t ≠ [] → readLE t ≠ 0) := by
      by_cases ht : t = []
      · subst ht
        exact ⟨absBytes_eq_nil_iff.mpr rfl, fun _ => hl, fun h => absurd rfl h⟩
      · rw [List.getLastD_cons, getLastD_of_ne_nil ht _ 0] at hl
        exact ⟨ih hl, fun h => absurd h ht, fun _ => readLE_ne_zero hl⟩
    obtain ⟨hrec, hnil, hcons⟩ := htail
    have hne : a.toNat + 256 * readLE t ≠ 0 := by
      by_cases ht : t = []
      · have ha := mt toNat_eq_zero_iff.mp (hnil ht)
        omega
      · have := hcons ht
        omega
    have ha := a.toNat_lt
    rw [readLE_cons, absBytes_eq, if_neg hne,
      show (a.toNat + 256 * readLE t) / 256 = readLE t by omega,
      show (a.toNat + 256 * readLE t) % 256 = a.toNat by omega, UInt8.ofNat_toNat, hrec]

/-- The magnitude bytes of a non-zero value end in a non-zero byte. -/
theorem absBytes_eq_concat {m : ℕ} (hm : m ≠ 0) :
    ∃ init last, absBytes m = init ++ [last] ∧ last ≠ 0 := by
  rcases List.eq_nil_or_concat' (absBytes m) with h | ⟨init, last, h⟩
  · exact absurd (absBytes_eq_nil_iff.mp h) hm
  · refine ⟨init, last, h, ?_⟩
    have := getLastD_absBytes_ne_zero hm
    rwa [h, List.getLastD_concat] at this

/-! ## What `set_vch` reads -/

/-- One step of the OR loop below the eighth byte: the shift stays under `64` and the bytes do not
overlap, so OR is addition. -/
theorem toNat_or_shiftLeft {r : UInt64} {i : ℕ} (b : UInt8) (hi : i < 8)
    (hr : r.toNat < 2 ^ (8 * i)) :
    (r ||| b.toUInt64 <<< UInt64.ofNat (8 * i)).toNat = r.toNat + 2 ^ (8 * i) * b.toNat := by
  have hb := b.toNat_lt
  have hshift : (UInt64.ofNat (8 * i)).toNat % 64 = 8 * i := by
    rw [UInt64.toNat_ofNat', Nat.mod_eq_of_lt (by omega), Nat.mod_eq_of_lt (by omega)]
  have hfit : 2 ^ (8 * i) * b.toNat < 2 ^ 64 :=
    calc 2 ^ (8 * i) * b.toNat < 2 ^ (8 * i) * 2 ^ 8 :=
          Nat.mul_lt_mul_of_pos_left (by omega) (Nat.two_pow_pos _)
      _ = 2 ^ (8 * i + 8) := (pow_add 2 _ 8).symm
      _ ≤ 2 ^ 64 := Nat.pow_le_pow_right (by norm_num) (by omega)
  have hor : b.toNat <<< (8 * i) ||| r.toNat = r.toNat + 2 ^ (8 * i) * b.toNat := by
    rw [← Nat.shiftLeft_add_eq_or_of_lt hr, Nat.shiftLeft_eq]
    ring
  rw [UInt64.toNat_or, UInt64.toNat_shiftLeft, UInt8.toNat_toUInt64, hshift,
    Nat.mod_eq_of_lt (by rw [Nat.shiftLeft_eq, mul_comm]; exact hfit), Nat.or_comm, hor]

/-- The OR loop over at most eight bytes reads them little-endian. -/
theorem toNat_orLoop {r : UInt64} {i : ℕ} {bs : List UInt8} (hr : r.toNat < 2 ^ (8 * i))
    (hlen : i + bs.length ≤ 8) : (orLoop r i bs).toNat = r.toNat + 2 ^ (8 * i) * readLE bs := by
  induction bs generalizing r i with
  | nil => simp [orLoop]
  | cons b bs ih =>
    rw [List.length_cons] at hlen
    have hstep := toNat_or_shiftLeft (r := r) b (by omega) hr
    have hb := b.toNat_lt
    have hr' : r.toNat + 2 ^ (8 * i) * b.toNat < 2 ^ (8 * (i + 1)) :=
      calc r.toNat + 2 ^ (8 * i) * b.toNat < 2 ^ (8 * i) * (b.toNat + 1) := by
            rw [Nat.mul_succ]; omega
        _ ≤ 2 ^ (8 * i) * 2 ^ 8 := Nat.mul_le_mul_left _ (by omega)
        _ = 2 ^ (8 * (i + 1)) := by rw [← pow_add, Nat.mul_succ]
    rw [orLoop, ih (by rwa [hstep]) (by omega), hstep, readLE_cons,
      show 8 * (i + 1) = 8 * i + 8 by ring, pow_add]
    ring

/-- Clearing bit `p` of a value whose top bit is `p`. -/
theorem clear_top_bit {y p : ℕ} (hp : p < 64) (hy : y < 2 ^ p) :
    (2 ^ p + y) &&& (2 ^ 64 - 1 - 2 ^ p) = y := by
  have hq : 0 < 2 ^ p := Nat.two_pow_pos p
  have h64 : 2 ^ 64 = 2 ^ (p + 1) * 2 ^ (63 - p) := by rw [← pow_add]; congr 1; omega
  have hB : 1 ≤ 2 ^ (63 - p) := Nat.one_le_two_pow
  -- below bit `p + 1` the mask keeps exactly the bits under `p`
  have hM : (2 ^ 64 - 1 - 2 ^ p) % 2 ^ (p + 1) = 2 ^ p - 1 := by
    have hdecomp : 2 ^ 64 - 1 - 2 ^ p = 2 ^ (p + 1) * (2 ^ (63 - p) - 1) + (2 ^ p - 1) := by
      rw [h64, Nat.mul_sub_one, pow_succ]
      have hle : 2 ^ p * 2 ≤ 2 ^ p * 2 * 2 ^ (63 - p) := Nat.le_mul_of_pos_right _ hB
      generalize 2 ^ p * 2 * 2 ^ (63 - p) = X at hle ⊢
      omega
    rw [hdecomp, Nat.mul_add_mod, Nat.mod_eq_of_lt (by rw [pow_succ]; omega)]
  have hx : 2 ^ p + y < 2 ^ (p + 1) := by rw [pow_succ]; omega
  calc (2 ^ p + y) &&& (2 ^ 64 - 1 - 2 ^ p)
      = ((2 ^ p + y) &&& (2 ^ 64 - 1 - 2 ^ p)) % 2 ^ (p + 1) :=
        (Nat.mod_eq_of_lt (by rw [Nat.and_comm]; exact Nat.and_lt_two_pow _ hx)).symm
    _ = (2 ^ p + y) &&& (2 ^ p - 1) := by rw [Nat.and_mod_two_pow, Nat.mod_eq_of_lt hx, hM]
    _ = y := by rw [Nat.and_two_pow_sub_one_eq_mod, Nat.add_mod_left, Nat.mod_eq_of_lt hy]

/-- The mask of `set_vch` for a vector of `n + 1 ≤ 8` bytes: every bit but the sign bit. -/
theorem toNat_not_sign_mask {n : ℕ} (hn : n < 8) :
    (~~~((0x80 : UInt64) <<< UInt64.ofNat (8 * n))).toNat = 2 ^ 64 - 1 - 2 ^ (8 * n + 7) := by
  have hshift : (UInt64.ofNat (8 * n)).toNat % 64 = 8 * n := by
    rw [UInt64.toNat_ofNat', Nat.mod_eq_of_lt (by omega), Nat.mod_eq_of_lt (by omega)]
  have hbit : (0x80 : UInt64).toNat <<< (8 * n) = 2 ^ (8 * n + 7) := by
    rw [Nat.shiftLeft_eq, pow_add, mul_comm]
    rfl
  rw [UInt64.toNat_not, UInt64.toNat_shiftLeft, hshift, hbit,
    Nat.mod_eq_of_lt (Nat.pow_lt_pow_right (by norm_num) (by omega))]
  rfl

/-- What `set_vch` reads from a vector of at most eight bytes: its little-endian value, or, when
the last byte has the sign bit, the negation of the value without that bit. -/
theorem set_vch_concat {init : List UInt8} (last : UInt8) (hlen : init.length < 8) :
    set_vch (init ++ [last]) =
      if last &&& 0x80 ≠ 0 then -(readLE (init ++ [last &&& 0x7f]) : ℤ)
      else readLE (init ++ [last]) := by
  have hres : (orLoop 0 0 (init ++ [last])).toNat = readLE (init ++ [last]) := by
    rw [toNat_orLoop (by simp) (by simp; omega)]
    simp
  have hlast := last.toNat_lt
  have hpow : 2 ^ (8 * init.length) * 2 ^ 7 = 2 ^ (8 * init.length + 7) := (pow_add 2 _ 7).symm
  have h63 : 2 ^ (8 * init.length + 7) ≤ 2 ^ 63 := Nat.pow_le_pow_right (by norm_num) (by omega)
  simp only [set_vch, List.getLastD_concat, List.length_append, List.length_singleton,
    Nat.add_sub_cancel]
  rw [if_neg (by simp)]
  split_ifs with hb
  · -- the sign bit: the value is `2 ^ (8 * n + 7)` above the value bits
    have h128 : 128 ≤ last.toNat := by
      rw [ne_eq, and_0x80_eq_zero_iff, not_lt] at hb
      exact hb
    have hy := (readLE_concat_bounds init (last &&& 0x7f)).2
    rw [toNat_and_0x7F] at hy
    have hsplit : readLE (init ++ [last]) = 2 ^ (8 * init.length + 7) +
        readLE (init ++ [last &&& 0x7f]) := by
      rw [readLE_append_singleton, readLE_append_singleton, toNat_and_0x7F,
        ← two_pow_eight_mul, ← hpow]
      have : last.toNat = 128 + last.toNat % 128 := by omega
      conv_lhs => rw [this]
      ring
    have hy' : readLE (init ++ [last &&& 0x7f]) < 2 ^ (8 * init.length + 7) :=
      calc _ < 2 ^ (8 * init.length) * (last.toNat % 128 + 1) := hy
        _ ≤ 2 ^ (8 * init.length) * 2 ^ 7 := Nat.mul_le_mul_left _ (by omega)
        _ = _ := hpow
    have hy64 : (readLE (init ++ [last &&& 0x7f]) : ℤ) < 2 ^ 63 := by
      have := hy'.trans_le h63
      omega
    rw [UInt64.toNat_and, hres, toNat_not_sign_mask hlen, hsplit, clear_top_bit (by omega) hy',
      toInt64_of_lt (Int.natCast_nonneg _) hy64]
    exact toInt64_eq_of_emod (by omega) (by omega) rfl
  · -- no sign bit: the value is under `2 ^ 63`
    have h127 : last.toNat < 128 := by
      rw [not_not, and_0x80_eq_zero_iff] at hb
      exact hb
    have hy := (readLE_concat_bounds init last).2
    have hlt : readLE (init ++ [last]) < 2 ^ 63 :=
      calc _ < 2 ^ (8 * init.length) * (last.toNat + 1) := hy
        _ ≤ 2 ^ (8 * init.length) * 2 ^ 7 := Nat.mul_le_mul_left _ (by omega)
        _ ≤ 2 ^ 63 := hpow ▸ h63
    rw [hres]
    exact toInt64_of_lt (Int.natCast_nonneg _) (by omega)

/-! ## What `serialize` writes -/

/-- `serialize` by the last byte of the magnitude: a sign byte after a last byte that uses the
sign bit, the sign bit set in the last byte of a negative value, or the magnitude as it is. -/
theorem serialize_eq_concat {v : ℤ} {init : List UInt8} {last : UInt8} (hv : v ≠ 0)
    (h : absBytes v.natAbs = init ++ [last]) :
    serialize v =
      if 128 ≤ last.toNat then init ++ [last, if v < 0 then 0x80 else 0]
      else if v < 0 then init ++ [last ||| 0x80] else init ++ [last] := by
  simp only [serialize, if_neg hv, h, List.getLastD_concat, List.dropLast_concat, ne_eq,
    and_0x80_eq_zero_iff, not_lt, decide_eq_true_eq, List.append_assoc, List.cons_append,
    List.nil_append]

theorem serialize_readLE {init : List UInt8} {last : UInt8} (hl : last ≠ 0) :
    serialize (readLE (init ++ [last]) : ℤ) =
      if 128 ≤ last.toNat then init ++ [last, 0] else init ++ [last] := by
  have hl' : (init ++ [last]).getLastD 0 ≠ 0 := by rwa [List.getLastD_concat]
  have hne : (readLE (init ++ [last]) : ℤ) ≠ 0 := by exact_mod_cast readLE_ne_zero hl'
  rw [serialize_eq_concat hne (by rw [Int.natAbs_natCast, absBytes_readLE hl'])]
  simp only [Int.natCast_nonneg, not_lt.mpr, if_false]

theorem serialize_neg_readLE {init : List UInt8} {last : UInt8} (hl : last ≠ 0) :
    serialize (-(readLE (init ++ [last]) : ℤ)) =
      if 128 ≤ last.toNat then init ++ [last, 0x80] else init ++ [last ||| 0x80] := by
  have hl' : (init ++ [last]).getLastD 0 ≠ 0 := by rwa [List.getLastD_concat]
  have hpos : 0 < (readLE (init ++ [last]) : ℤ) := by
    exact_mod_cast Nat.pos_of_ne_zero (readLE_ne_zero hl')
  rw [serialize_eq_concat (by omega)
    (by rw [Int.natAbs_neg, Int.natAbs_natCast, absBytes_readLE hl'])]
  simp only [show -(readLE (init ++ [last]) : ℤ) < 0 by omega, if_true]

/-- How many bytes `serialize` writes: at most `k` exactly when the magnitude fits in `8 * k - 1`
bits. This holds for every integer, `INT64_MIN` included, whose magnitude `2 ^ 63` takes nine. -/
theorem length_serialize_le_iff {k : ℕ} (hk : 1 ≤ k) (v : ℤ) :
    (serialize v).length ≤ k ↔ v.natAbs < 2 ^ (8 * k - 1) := by
  by_cases hv : v = 0
  · simp [serialize, hv]
  obtain ⟨init, last, hab, hl0⟩ := absBytes_eq_concat (Int.natAbs_ne_zero.mpr hv)
  have hm : v.natAbs = readLE (init ++ [last]) := by rw [← hab, readLE_absBytes]
  obtain ⟨hlo, hhi⟩ := readLE_concat_bounds init last
  rw [← hm] at hlo hhi
  have hlast := last.toNat_lt
  rw [serialize_eq_concat hv hab]
  by_cases h128 : 128 ≤ last.toNat
  · -- a sign byte was added: the magnitude has between `8 * n + 7` and `8 * n + 8` bits
    have hlen : (init ++ [last, if v < 0 then 0x80 else 0]).length = init.length + 2 := by simp
    rw [if_pos h128, hlen]
    refine lt_two_pow_iff_of_between (a := 8 * init.length + 7) (b := 8 * init.length + 8)
      ?_ ?_ (fun h => by omega) (fun h => by omega)
    · calc 2 ^ (8 * init.length + 7) = 2 ^ (8 * init.length) * 128 := by rw [pow_add]; rfl
        _ ≤ _ := (Nat.mul_le_mul_left _ h128).trans hlo
    · calc _ < 2 ^ (8 * init.length) * (last.toNat + 1) := hhi
        _ ≤ 2 ^ (8 * init.length) * 2 ^ 8 := Nat.mul_le_mul_left _ hlast
        _ = _ := (pow_add 2 _ 8).symm
  · -- the last byte keeps the sign: between `8 * n` and `8 * n + 7` bits
    have hlen : (if v < 0 then init ++ [last ||| 0x80] else init ++ [last]).length =
        init.length + 1 := by split_ifs <;> simp
    rw [if_neg h128, hlen]
    refine lt_two_pow_iff_of_between (a := 8 * init.length) (b := 8 * init.length + 7)
      ?_ ?_ (fun h => by omega) (fun h => by omega)
    · exact (Nat.le_mul_of_pos_right _ (Nat.pos_of_ne_zero (mt toNat_eq_zero_iff.mp hl0))).trans hlo
    · calc _ < 2 ^ (8 * init.length) * (last.toNat + 1) := hhi
        _ ≤ 2 ^ (8 * init.length) * 2 ^ 7 := Nat.mul_le_mul_left _ (by omega)
        _ = _ := (pow_add 2 _ 7).symm

/-! ## Reading what `serialize` writes -/

theorem getD_concat_pred {init : List UInt8} (last : UInt8) (h : init ≠ []) :
    (init ++ [last]).getD (init.length + 1 - 2) 0 = init.getLastD 0 := by
  rcases List.eq_nil_or_concat' init with rfl | ⟨init', b, rfl⟩
  · exact absurd rfl h
  · simp

/-- The constructor with `fRequireMinimal` on a vector split at its last byte: the minimality
rule reads the last byte and, when it has no value bits, the byte before it. -/
theorem ofVch_true_concat (init : List UInt8) (last : UInt8) (k : ℕ) :
    ofVch (init ++ [last]) true k =
      if k < init.length + 1 then .error "script number overflow"
      else if last &&& 0x7f = 0 ∧ (init = [] ∨ init.getLastD 0 &&& 0x80 = 0) then
        .error "non-minimally encoded script number"
      else .ok (set_vch (init ++ [last])) := by
  have hcond : (init ++ [last]).length ≤ 1 ∨
      (init ++ [last]).getD ((init ++ [last]).length - 2) 0 &&& 0x80 = 0 ↔
      init = [] ∨ init.getLastD 0 &&& 0x80 = 0 := by
    by_cases hi : init = []
    · simp [hi]
    · rw [List.length_append, List.length_singleton, getD_concat_pred last hi]
      simp [hi]
  simp only [ofVch, List.length_append, List.length_singleton, List.getLastD_concat, true_and,
    ne_eq, List.append_eq_nil_iff, List.cons_ne_nil, and_false, not_false_eq_true] at hcond ⊢
  rw [if_congr (and_congr_right fun _ => hcond) rfl rfl]

/-- The value bits of a byte with the sign bit set on top of them. -/
theorem and_0x7F_or_0x80_of_lt {b : UInt8} (hb : b.toNat < 128) : (b ||| 0x80) &&& 0x7f = b := by
  apply UInt8.toNat_inj.mp
  rw [toNat_and_0x7F, toNat_or_0x80 hb]
  omega

theorem or_0x80_and_0x80_ne_zero {b : UInt8} (hb : b.toNat < 128) : (b ||| 0x80) &&& 0x80 ≠ 0 := by
  rw [ne_eq, and_0x80_eq_zero_iff, toNat_or_0x80 hb]
  omega

/-- Every vector `serialize` writes in at most `k ≤ 8` bytes passes the constructor and reads
back as its value. -/
theorem ofVch_serialize {v : ℤ} {k : ℕ} (hk : (serialize v).length ≤ k) (hk8 : k ≤ 8) :
    ofVch (serialize v) true k = .ok v := by
  by_cases hv : v = 0
  · simp [hv, serialize, ofVch, set_vch]
  obtain ⟨init, last, hab, hl0⟩ := absBytes_eq_concat (Int.natAbs_ne_zero.mpr hv)
  have hm : v.natAbs = readLE (init ++ [last]) := by rw [← hab, readLE_absBytes]
  -- the sign byte adds nothing to the magnitude
  have hzero : readLE (init ++ [last, 0]) = readLE (init ++ [last]) := by
    simpa using readLE_append_zero (init ++ [last])
  rcases Int.natAbs_eq v with hpos | hneg
  · -- a positive value: the magnitude, with a zero byte when its last byte has the sign bit
    rw [hpos, hm, serialize_readLE hl0] at hk ⊢
    split_ifs at hk ⊢ with h128
    · rw [show init ++ [last, 0] = (init ++ [last]) ++ [0] by simp, ofVch_true_concat,
        set_vch_concat _ (by simp at hk ⊢; omega)]
      simp at hk
      simp [show ¬ k < init.length + 2 by omega, (and_0x80_eq_zero_iff last).not.mpr (by omega),
        hzero]
    · have h127 : last.toNat < 128 := not_le.mp h128
      rw [ofVch_true_concat, set_vch_concat _ (by simp at hk; omega)]
      simp at hk
      simp [show ¬ k < init.length + 1 by omega, and_0x7F_of_lt h127, hl0,
        (and_0x80_eq_zero_iff last).mpr h127]
  · -- a negative value: the sign byte `0x80`, or the sign bit set in the last byte
    rw [hneg, hm, serialize_neg_readLE hl0] at hk ⊢
    split_ifs at hk ⊢ with h128
    · rw [show init ++ [last, 0x80] = (init ++ [last]) ++ [0x80] by simp, ofVch_true_concat,
        set_vch_concat _ (by simp at hk ⊢; omega)]
      simp at hk
      simp [show ¬ k < init.length + 2 by omega, (and_0x80_eq_zero_iff last).not.mpr (by omega),
        show (0x80 : UInt8) &&& 0x7f = 0 by decide, hzero]
    · have h127 : last.toNat < 128 := not_le.mp h128
      rw [ofVch_true_concat, set_vch_concat _ (by simp at hk; omega)]
      simp at hk
      simp [show ¬ k < init.length + 1 by omega, and_0x7F_or_0x80_of_lt h127, hl0,
        or_0x80_and_0x80_ne_zero h127]

/-! ## Writing what the constructor reads -/

/-- A minimal vector whose last byte has no value bits ends in a byte with the sign bit before
it. -/
theorem exists_sign_byte_of_minimal {init : List UInt8} {x : UInt8}
    (hmin : ¬(x = 0 ∧ (init = [] ∨ init.getLastD 0 &&& 0x80 = 0))) (hx : x = 0) :
    ∃ init' b, init = init' ++ [b] ∧ 128 ≤ b.toNat := by
  rw [not_and, not_or] at hmin
  obtain ⟨hne, hsign⟩ := hmin hx
  rcases List.eq_nil_or_concat' init with h | ⟨init', b, rfl⟩
  · exact absurd h hne
  · rw [List.getLastD_concat, and_0x80_eq_zero_iff, not_lt] at hsign
    exact ⟨init', b, rfl, hsign⟩

theorem ne_zero_of_128_le {b : UInt8} (hb : 128 ≤ b.toNat) : b ≠ 0 := by
  intro h
  rw [h, UInt8.toNat_zero] at hb
  omega

/-- Every vector of at most eight bytes the constructor accepts with `fRequireMinimal` is what
`serialize` writes of its value. -/
theorem serialize_ofVch {vch : List UInt8} {k : ℕ} {v : ℤ} (hk8 : k ≤ 8)
    (h : ofVch vch true k = .ok v) : serialize v = vch := by
  rcases List.eq_nil_or_concat' vch with rfl | ⟨init, last, rfl⟩
  · simp only [ofVch, List.length_nil, Nat.not_lt_zero, if_false, ne_eq, not_true_eq_false,
      false_and, and_false, Except.ok.injEq] at h
    simp [← h, set_vch, serialize]
  rw [ofVch_true_concat] at h
  split_ifs at h with hk hmin
  cases h
  rw [set_vch_concat last (by omega)]
  by_cases h128 : 128 ≤ last.toNat
  · -- the sign bit: a negative value
    rw [if_pos ((and_0x80_eq_zero_iff last).not.mpr (by omega))]
    by_cases hl' : last &&& 0x7f = 0
    · -- a bare sign byte `0x80` after a byte that uses the sign bit
      obtain ⟨init', b, rfl, hb⟩ := exists_sign_byte_of_minimal hmin hl'
      have hlast : last = 0x80 := by
        apply UInt8.toNat_inj.mp
        have hmod := congrArg UInt8.toNat hl'
        rw [toNat_and_0x7F, UInt8.toNat_zero] at hmod
        have hlt := last.toNat_lt
        show last.toNat = 128
        omega
      rw [hl', readLE_append_zero, serialize_neg_readLE (ne_zero_of_128_le hb), if_pos hb,
        hlast]
      simp
    · have hlt : (last &&& 0x7f).toNat < 128 := by rw [toNat_and_0x7F]; omega
      rw [serialize_neg_readLE hl', if_neg (by omega), and_0x7F_or_0x80 h128]
  · -- no sign bit: a non-negative value
    rw [if_neg (by rw [not_not, and_0x80_eq_zero_iff]; omega)]
    by_cases hl : last = 0
    · -- a bare zero byte after a byte that uses the sign bit
      obtain ⟨init', b, rfl, hb⟩ := exists_sign_byte_of_minimal hmin
        (by rw [hl]; rfl)
      rw [hl, readLE_append_zero, serialize_readLE (ne_zero_of_128_le hb), if_pos hb]
      simp
    · rw [serialize_readLE hl, if_neg h128]

/-! ## The gas reader -/

theorem vch_to_uint64_concat {init : List UInt8} {last : UInt8} (hlen : init.length < 8)
    (hl : last.toNat < 128) :
    vch_to_uint64 (init ++ [last]) = .ok (UInt64.ofNat (readLE (init ++ [last]))) := by
  have hres : (orLoop 0 0 (init ++ [last])).toNat = readLE (init ++ [last]) := by
    rw [toNat_orLoop (by simp) (by simp; omega)]
    simp
  have hfit : readLE (init ++ [last]) < 2 ^ 64 :=
    calc _ < 256 ^ (init ++ [last]).length := readLE_lt _
      _ ≤ 256 ^ 8 := Nat.pow_le_pow_right (by norm_num) (by simp; omega)
      _ = 2 ^ 64 := by norm_num
  simp only [vch_to_uint64, List.length_append, List.length_singleton, List.getLastD_concat]
  rw [if_neg (by omega), if_neg (by simp), if_neg (by rw [not_not, and_0x80_eq_zero_iff]; exact hl)]
  congr 1
  apply UInt64.toNat_inj.mp
  rw [hres, UInt64.toNat_ofNat', Nat.mod_eq_of_lt hfit]

/-- The gas reader reads back every non-negative `int64_t` that `serialize` writes. -/
theorem vch_to_uint64_serialize {v : ℤ} (h₀ : 0 ≤ v) (hv : v.natAbs < 2 ^ 63) :
    vch_to_uint64 (serialize v) = .ok (UInt64.ofNat v.toNat) := by
  by_cases hv0 : v = 0
  · simp [hv0, serialize, vch_to_uint64]
  have hlen := (length_serialize_le_iff (k := 8) (by norm_num) v).mpr hv
  obtain ⟨init, last, hab, hl0⟩ := absBytes_eq_concat (Int.natAbs_ne_zero.mpr hv0)
  have hm : v.natAbs = readLE (init ++ [last]) := by rw [← hab, readLE_absBytes]
  have hv' : v = (readLE (init ++ [last]) : ℤ) := by rw [← hm]; omega
  rw [hv', serialize_readLE hl0] at hlen
  rw [hv', serialize_readLE hl0, Int.toNat_natCast]
  split_ifs at hlen ⊢ with h128
  · rw [show init ++ [last, 0] = (init ++ [last]) ++ [0] by simp,
      vch_to_uint64_concat (by simp at hlen ⊢; omega) (by decide), readLE_append_zero]
  · exact vch_to_uint64_concat (by simp at hlen; omega) (by omega)

/-- Script numbers round-trip through `serialize`, the constructor with `fRequireMinimal` and
`nMaxNumSize = 8`, and the gas reader. -/
theorem serialize_CScriptNum_roundtrip :
    (∀ v : ℤ, -(INT64_MAX : ℤ) ≤ v → v ≤ INT64_MAX →
      ofVch (serialize v) true 8 = .ok v ∧ (serialize v).length ≤ 8 ∧
        ((serialize v).length ≤ 4 ↔ v.natAbs < 2 ^ 31)) ∧
    (∀ vch k v, k ≤ 8 → ofVch vch true k = .ok v → serialize v = vch) ∧
    (∀ v : ℤ, 0 ≤ v → v ≤ INT64_MAX →
      vch_to_uint64 (serialize v) = .ok (UInt64.ofNat v.toNat)) := by
  have hbound {v : ℤ} (hlo : -(INT64_MAX : ℤ) ≤ v) (hhi : v ≤ INT64_MAX) : v.natAbs < 2 ^ 63 := by
    unfold INT64_MAX at hlo hhi
    omega
  refine ⟨fun v hlo hhi => ?_, fun vch k v hk8 h => serialize_ofVch hk8 h,
    fun v h₀ hhi => vch_to_uint64_serialize h₀ (hbound (by omega) hhi)⟩
  have h8 := (length_serialize_le_iff (k := 8) (by norm_num) v).mpr (hbound hlo hhi)
  exact ⟨ofVch_serialize h8 le_rfl, h8, length_serialize_le_iff (by norm_num) v⟩

theorem serialize_CScriptNum_roundtrip_neg_255 :
    ofVch (serialize (-255)) true 8 = .ok (-255) ∧ serialize (-255) = [0xff, 0x80] :=
  ⟨(serialize_CScriptNum_roundtrip.1 (-255) (by unfold INT64_MAX; omega)
      (by unfold INT64_MAX; omega)).1,
    by decide +kernel⟩

/-- Past eight bytes the shift of the ninth byte by `64` wraps to a shift by `0`: the vector
`01 00 00 00 00 00 00 00 01` passes the constructor with `nMaxNumSize = 9` and reads as `1`,
whose encoding is the single byte `01`. -/
theorem set_vch_nine_bytes :
    ofVch [1, 0, 0, 0, 0, 0, 0, 0, 1] true 9 = .ok 1 ∧ serialize 1 ≠ [1, 0, 0, 0, 0, 0, 0, 0, 1] :=
  ⟨by decide, by decide +kernel⟩

end CScriptNum

end HydraNode
