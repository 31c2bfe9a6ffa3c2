import HydraNode.Contract.AAL

/-!
# Sizes and variable-length integers

`serialize.h` writes the length of every vector, string and script as a CompactSize: one byte
for a length below `253`, otherwise a marker byte `253`, `254` or `255` followed by the length
in `2`, `4` or `8` little-endian bytes. `ReadCompactSize` accepts the shortest form only, and no
length above `MAX_SIZE`, which Hydra raises to 256 MiB.

The coins database and the undo files write heights, codes and amounts as VarInts: base-128
digits, most significant first, with the high bit set on every digit but the last and one
subtracted from every digit but the last. The subtraction makes the code a bijection between
numbers and digit strings, so `ReadVarInt` accepts exactly the strings `WriteVarInt` writes.
The reader is generic over the unsigned type it fills; here that type is its width `w`, and the
reader's two guards keep every intermediate value below `2 ^ w`. For a type narrower than one
digit (`w < 7`) a single digit could overflow, so the canonicity statement assumes `7 ≤ w`,
which every C++ integer type meets.

A stream is the list of its bytes. A reader returns what it read and the rest of the stream, or
the text of the exception it throws.

## Main definitions

* `readData`, and `ser_readdata8` to `ser_writedata64` for each width
* `MAX_SIZE`, `GetSizeOfCompactSize`, `WriteCompactSize`, `ReadCompactSize`
* `GetSizeOfVarInt`, `WriteVarInt`, `ReadVarInt`

## Main results

* `readLE_writeLE`, `writeLE_readLE` — the fixed-width integers
* `ReadCompactSize_eq_ok_iff` — what `ReadCompactSize` accepts
* `readVarIntLoop_eq_ok` — what the loop of `ReadVarInt` accepts
* `CompactSize_VarInt_canonical` — both codes read back what they write, in exactly as many
  bytes as their size functions say, and accept nothing else
-/

namespace HydraNode

/-! ## Fixed-width integers -/

/-- The `n` bytes at the front of the stream, as a little-endian number; `CDataStream::read`
throws at the end of the data. -/
def readData (n : ℕ) (s : List UInt8) : Except String (ℕ × List UInt8) :=
  if s.length < n then .error "CDataStream::read(): end of data"
  else .ok (readLE (s.take n), s.drop n)

/-- `ser_readdata8`, `ser_readdata16`, `ser_readdata32` and `ser_readdata64`. -/
def ser_readdata8 : List UInt8 → Except String (ℕ × List UInt8) := readData 1
def ser_readdata16 : List UInt8 → Except String (ℕ × List UInt8) := readData 2
def ser_readdata32 : List UInt8 → Except String (ℕ × List UInt8) := readData 4
def ser_readdata64 : List UInt8 → Except String (ℕ × List UInt8) := readData 8

/-- `ser_writedata8`, `ser_writedata16`, `ser_writedata32` and `ser_writedata64`. -/
def ser_writedata8 : ℕ → List UInt8 := writeLE 1
def ser_writedata16 : ℕ → List UInt8 := writeLE 2
def ser_writedata32 : ℕ → List UInt8 := writeLE 4
def ser_writedata64 : ℕ → List UInt8 := writeLE 8

@[simp] theorem length_writeLE (n x : ℕ) : (writeLE n x).length = n := by
  simp [writeLE]

theorem writeLE_succ (n x : ℕ) : writeLE (n + 1) x = UInt8.ofNat x :: writeLE n (x / 256) := by
  simp only [writeLE, List.range_succ_eq_map, List.map_cons, List.map_map, pow_zero,
    Nat.div_one, List.cons.injEq, true_and]
  refine List.map_congr_left fun i _ => ?_
  simp [Nat.div_div_eq_div_mul, pow_succ']

@[simp] theorem readLE_nil : readLE [] = 0 := rfl

theorem readLE_cons (b : UInt8) (l : List UInt8) : readLE (b :: l) = b.toNat + 256 * readLE l :=
  rfl

theorem readLE_lt (l : List UInt8) : readLE l < 256 ^ l.length := by
  induction l with
  | nil => simp
  | cons b l ih =>
    have hb : b.toNat < 256 := b.toNat_lt
    rw [readLE_cons, List.length_cons, pow_succ']
    omega

/-- Reading `n` bytes written from `x` gives `x` modulo `256 ^ n`. -/
theorem readLE_writeLE (n x : ℕ) : readLE (writeLE n x) = x % 256 ^ n := by
  induction n generalizing x with
  | zero => simp [writeLE, Nat.mod_one]
  | succ n ih =>
    rw [writeLE_succ, readLE_cons, ih, UInt8.toNat_ofNat', pow_succ' 256 n, Nat.mod_mul]

/-- Writing back the number a byte string reads gives the string. -/
theorem writeLE_readLE (l : List UInt8) : writeLE l.length (readLE l) = l := by
  induction l with
  | nil => rfl
  | cons b l ih =>
    have hb : b.toNat < 256 := b.toNat_lt
    have hdiv : (b.toNat + 256 * readLE l) / 256 = readLE l := by omega
    have hbyte : UInt8.ofNat (b.toNat + 256 * readLE l) = b := by
      apply UInt8.toNat_inj.mp
      rw [UInt8.toNat_ofNat']
      omega
    rw [List.length_cons, writeLE_succ, readLE_cons, hdiv, hbyte, ih]

theorem readData_append {n : ℕ} {l : List UInt8} (hl : l.length = n) (rest : List UInt8) :
    readData n (l ++ rest) = .ok (readLE l, rest) := by
  simp [readData, hl, List.take_left' hl, List.drop_left' hl]

theorem readData_eq_ok {n x : ℕ} {s rest : List UInt8} (h : readData n s = .ok (x, rest)) :
    ∃ l, l.length = n ∧ x = readLE l ∧ s = l ++ rest := by
  unfold readData at h
  split_ifs at h with hlen
  cases h
  exact ⟨s.take n, by simp; omega, rfl, (List.take_append_drop n s).symm⟩

/-! ## CompactSize -/

/-- `MAX_SIZE`, raised by Hydra to 256 MiB. -/
def MAX_SIZE : ℕ := 0x10000000

/-- `GetSizeOfCompactSize`. -/
def GetSizeOfCompactSize (nSize : ℕ) : ℕ :=
  if nSize < 253 then 1
  else if nSize ≤ 0xffff then 1 + 2
  else if nSize ≤ 0xffffffff then 1 + 4
  else 1 + 8

/-- `WriteCompactSize`. -/
def WriteCompactSize (nSize : ℕ) : List UInt8 :=
  if nSize < 253 then ser_writedata8 nSize
  else if nSize ≤ 0xffff then ser_writedata8 253 ++ ser_writedata16 nSize
  else if nSize ≤ 0xffffffff then ser_writedata8 254 ++ ser_writedata32 nSize
  else ser_writedata8 255 ++ ser_writedata64 nSize

/-- The three near-identical branches of `ReadCompactSize` after a marker byte: the length in
the bytes `read` takes, rejected below `lo`, where a shorter form exists. -/
def readCompactSizeAfterMarker (read : List UInt8 → Except String (ℕ × List UInt8)) (lo : ℕ)
    (s : List UInt8) : Except String (ℕ × List UInt8) := do
  let (nSizeRet, s) ← read s
  if nSizeRet < lo then throw "non-canonical ReadCompactSize()" else pure (nSizeRet, s)

/-- `ReadCompactSize`: the length and the rest of the stream. -/
def ReadCompactSize (s : List UInt8) : Except String (ℕ × List UInt8) := do
  let (chSize, s) ← ser_readdata8 s
  let (nSizeRet, s) ←
    (if chSize < 253 then pure (chSize, s)
    else if chSize = 253 then readCompactSizeAfterMarker ser_readdata16 253 s
    else if chSize = 254 then readCompactSizeAfterMarker ser_readdata32 0x10000 s
    else readCompactSizeAfterMarker ser_readdata64 0x100000000 s)
  if MAX_SIZE < nSizeRet then throw "ReadCompactSize(): size too large" else pure (nSizeRet, s)

@[simp] theorem length_WriteCompactSize (n : ℕ) :
    (WriteCompactSize n).length = GetSizeOfCompactSize n := by
  unfold WriteCompactSize GetSizeOfCompactSize
  split_ifs <;> simp [ser_writedata8, ser_writedata16, ser_writedata32, ser_writedata64]

theorem readData_writeLE (k x : ℕ) (rest : List UInt8) :
    readData k (writeLE k x ++ rest) = .ok (x % 256 ^ k, rest) := by
  rw [readData_append (length_writeLE k x), readLE_writeLE]

/-- A read of `k` bytes that succeeds took the `k` bytes of a number below `256 ^ k`. -/
theorem readData_eq_ok_writeLE {k : ℕ} {s rest : List UInt8} {n : ℕ}
    (h : readData k s = .ok (n, rest)) : n < 256 ^ k ∧ s = writeLE k n ++ rest := by
  obtain ⟨l, hl, rfl, rfl⟩ := readData_eq_ok h
  refine ⟨hl ▸ readLE_lt l, ?_⟩
  rw [← hl, writeLE_readLE]

/-- What a branch after a marker accepts: `k` bytes of a length from `lo` on. -/
theorem readCompactSizeAfterMarker_eq_ok_iff {k lo : ℕ} {s rest : List UInt8} {n : ℕ} :
    readCompactSizeAfterMarker (readData k) lo s = .ok (n, rest) ↔
      lo ≤ n ∧ n < 256 ^ k ∧ s = writeLE k n ++ rest := by
  constructor
  · intro h
    obtain ⟨⟨m, s'⟩, hread, h⟩ := except_bind_eq_ok_iff.mp h
    dsimp only at h
    split_ifs at h with hlo
    cases h
    exact ⟨by omega, readData_eq_ok_writeLE hread⟩
  · rintro ⟨hlo, hn, rfl⟩
    simp [readCompactSizeAfterMarker, readData_writeLE, Nat.mod_eq_of_lt hn,
      show ¬n < lo by omega, pure, Except.pure]

/-- What `ReadCompactSize` accepts: the shortest form of a length up to `MAX_SIZE`, followed by
the rest of the stream. -/
theorem ReadCompactSize_eq_ok_iff {s rest : List UInt8} {n : ℕ} :
    ReadCompactSize s = .ok (n, rest) ↔ n ≤ MAX_SIZE ∧ s = WriteCompactSize n ++ rest := by
  constructor
  · intro h
    obtain ⟨⟨chSize, s₁⟩, h8, h⟩ := except_bind_eq_ok_iff.mp h
    obtain ⟨⟨nSizeRet, s₂⟩, hsize, h⟩ := except_bind_eq_ok_iff.mp h
    dsimp only at h
    split_ifs at h with hmax
    cases h
    obtain ⟨hch, rfl⟩ := readData_eq_ok_writeLE h8
    refine ⟨by omega, ?_⟩
    -- the marker byte decides how many bytes follow, and which lengths they may hold
    split_ifs at hsize with h253 h253' h254
    · cases hsize
      simp [WriteCompactSize, h253, ser_writedata8]
    · obtain ⟨hlo, hn, rfl⟩ := readCompactSizeAfterMarker_eq_ok_iff.mp hsize
      simp [WriteCompactSize, show ¬n < 253 by omega, show n ≤ 0xffff by omega,
        ser_writedata8, ser_writedata16, h253']
    · obtain ⟨hlo, hn, rfl⟩ := readCompactSizeAfterMarker_eq_ok_iff.mp hsize
      simp [WriteCompactSize, show ¬n < 253 by omega, show ¬n ≤ 0xffff by omega,
        show n ≤ 0xffffffff by omega, ser_writedata8, ser_writedata32, h254]
    · -- an eight-byte length is at least `2 ^ 32`, above `MAX_SIZE`
      obtain ⟨hlo, -, -⟩ := readCompactSizeAfterMarker_eq_ok_iff.mp hsize
      simp only [MAX_SIZE] at hmax
      omega
  · rintro ⟨hmax, rfl⟩
    have hsize : ¬MAX_SIZE < n := by omega
    unfold WriteCompactSize
    split_ifs with h₁ h₂ h₃
    · simp [ReadCompactSize, ser_readdata8, ser_writedata8, readData_writeLE,
        Nat.mod_eq_of_lt (show n < 256 by omega), h₁, hsize, pure, Except.pure]
    · have htail : readCompactSizeAfterMarker ser_readdata16 253 (ser_writedata16 n ++ rest) =
          .ok (n, rest) :=
        readCompactSizeAfterMarker_eq_ok_iff.mpr ⟨by omega, by omega, rfl⟩
      simp [ReadCompactSize, ser_readdata8, ser_writedata8, readData_writeLE, htail, hsize, pure,
        Except.pure]
    · have htail : readCompactSizeAfterMarker ser_readdata32 0x10000 (ser_writedata32 n ++ rest) =
          .ok (n, rest) :=
        readCompactSizeAfterMarker_eq_ok_iff.mpr ⟨by omega, by omega, rfl⟩
      simp [ReadCompactSize, ser_readdata8, ser_writedata8, readData_writeLE, htail, hsize, pure,
        Except.pure]
    · simp only [MAX_SIZE] at hmax
      omega

/-! ## VarInt -/

/-- `GetSizeOfVarInt`: one digit, and one more for each step `n = (n >> 7) - 1`. -/
def GetSizeOfVarInt (n : ℕ) : ℕ :=
  if n ≤ 0x7F then 1 else GetSizeOfVarInt ((n >>> 7) - 1) + 1
termination_by n
decreasing_by
  rw [Nat.shiftRight_eq_div_pow]
  omega

/-- The digits `WriteVarInt` puts in `tmp` from `tmp[len]` on: the lowest seven bits, with the
high bit set except in `tmp[0]`, then the digits of `(n >> 7) - 1`. -/
def varIntTmp (n len : ℕ) : List UInt8 :=
  let tmp := UInt8.ofNat (n &&& 0x7F) ||| (if len = 0 then 0x00 else 0x80)
  if n ≤ 0x7F then [tmp] else tmp :: varIntTmp ((n >>> 7) - 1) (len + 1)
termination_by n
decreasing_by
  rw [Nat.shiftRight_eq_div_pow]
  omega

/-- `WriteVarInt`: `tmp[len]` down to `tmp[0]`. -/
def WriteVarInt (n : ℕ) : List UInt8 := (varIntTmp n 0).reverse

/-- The loop of `ReadVarInt` into an unsigned type of `w` bits, from the value `n` read so far.
The first guard keeps `n << 7` below `2 ^ w`, the second keeps `n + 1` there. -/
def readVarIntLoop (w n : ℕ) : List UInt8 → Except String (ℕ × List UInt8)
  | [] => .error "CDataStream::read(): end of data"
  | chData :: s =>
    if (2 ^ w - 1) >>> 7 < n then .error "ReadVarInt(): size too large"
    else
      let n := (n <<< 7 ||| (chData &&& 0x7F).toNat) % 2 ^ w
      if chData &&& 0x80 ≠ 0 then
        if n = 2 ^ w - 1 then .error "ReadVarInt(): size too large"
        else readVarIntLoop w (n + 1) s
      else .ok (n, s)

/-- `ReadVarInt` into an unsigned type of `w` bits. -/
def ReadVarInt (w : ℕ) (s : List UInt8) : Except String (ℕ × List UInt8) :=
  readVarIntLoop w 0 s

/-! ### The bytes of a digit -/

theorem and_0x7F_eq_mod (n : ℕ) : n &&& 0x7F = n % 128 :=
  Nat.and_two_pow_sub_one_eq_mod n 7

theorem toNat_and_0x7F (b : UInt8) : (b &&& 0x7F).toNat = b.toNat % 128 := by
  rw [UInt8.toNat_and]
  exact and_0x7F_eq_mod b.toNat

theorem toNat_ofNat_or_0x80 {d : ℕ} (hd : d < 128) : (UInt8.ofNat d ||| 0x80).toNat = d + 128 := by
  rw [UInt8.toNat_or, UInt8.toNat_ofNat', Nat.mod_eq_of_lt (by omega)]
  rw [show (0x80 : UInt8).toNat = 2 ^ 7 * 1 from rfl, Nat.or_comm,
    ← Nat.two_pow_add_eq_or_of_lt (by omega)]
  omega

theorem and_0x80_eq_zero_iff (b : UInt8) : b &&& 0x80 = 0 ↔ b.toNat < 128 := by
  have hand : ∀ i : Fin 256, i.val &&& 128 = i.val / 128 * 128 := by decide +kernel
  have hb : (b &&& 0x80).toNat = b.toNat / 128 * 128 := by
    rw [UInt8.toNat_and]
    exact hand ⟨b.toNat, b.toNat_lt⟩
  rw [← UInt8.toNat_inj, hb, show (0 : UInt8).toNat = 0 from rfl]
  omega

/-- A byte with the high bit set is the digit of its lowest seven bits with the high bit. -/
theorem eq_ofNat_or_0x80 {b : UInt8} (hb : 128 ≤ b.toNat) :
    b = UInt8.ofNat (b.toNat % 128) ||| 0x80 := by
  apply UInt8.toNat_inj.mp
  rw [toNat_ofNat_or_0x80 (Nat.mod_lt _ (by omega))]
  have := b.toNat_lt
  omega

/-! ### Writing -/

theorem varIntTmp_eq (n len : ℕ) :
    varIntTmp n len =
      if n ≤ 127 then [UInt8.ofNat (n % 128) ||| (if len = 0 then 0x00 else 0x80)]
      else (UInt8.ofNat (n % 128) ||| (if len = 0 then 0x00 else 0x80)) ::
        varIntTmp (n / 128 - 1) (len + 1) := by
  rw [varIntTmp, and_0x7F_eq_mod, Nat.shiftRight_eq_div_pow]

/-- The digits after `tmp[0]` all carry the high bit, whatever their index. -/
theorem varIntTmp_succ (n len : ℕ) : varIntTmp n (len + 1) = varIntTmp n 1 := by
  induction n using Nat.strong_induction_on generalizing len with
  | _ n ih =>
    rw [varIntTmp_eq n (len + 1), varIntTmp_eq n 1]
    simp only [Nat.add_one_ne_zero, one_ne_zero, if_false]
    split_ifs with hn
    · rfl
    · rw [ih _ (by omega) (len + 1), ih _ (by omega) 1]

/-- The digits before the last, as `WriteVarInt` writes them: those of `m` with the high bit. -/
theorem reverse_varIntTmp_one (m : ℕ) :
    (varIntTmp m 1).reverse =
      if m ≤ 127 then [UInt8.ofNat m ||| 0x80]
      else (varIntTmp (m / 128 - 1) 1).reverse ++ [UInt8.ofNat (m % 128) ||| 0x80] := by
  rw [varIntTmp_eq m 1]
  simp only [one_ne_zero, if_false]
  split_ifs with hm
  · simp [Nat.mod_eq_of_lt (show m < 128 by omega)]
  · simp [varIntTmp_succ]

theorem WriteVarInt_eq (n : ℕ) :
    WriteVarInt n =
      if n ≤ 127 then [UInt8.ofNat n]
      else (varIntTmp (n / 128 - 1) 1).reverse ++ [UInt8.ofNat (n % 128)] := by
  rw [WriteVarInt, varIntTmp_eq n 0]
  simp only [if_true]
  split_ifs with hn
  · simp [Nat.mod_eq_of_lt (show n < 128 by omega)]
  · simp

theorem GetSizeOfVarInt_eq (n : ℕ) :
    GetSizeOfVarInt n = if n ≤ 127 then 1 else GetSizeOfVarInt (n / 128 - 1) + 1 := by
  rw [GetSizeOfVarInt, Nat.shiftRight_eq_div_pow]

theorem length_varIntTmp (n len : ℕ) : (varIntTmp n len).length = GetSizeOfVarInt n := by
  induction n using Nat.strong_induction_on generalizing len with
  | _ n ih =>
    rw [varIntTmp_eq, GetSizeOfVarInt_eq]
    by_cases hn : n ≤ 127
    · rw [if_pos hn, if_pos hn, List.length_singleton]
    · rw [if_neg hn, if_neg hn, List.length_cons, ih _ (by omega)]

@[simp] theorem length_WriteVarInt (n : ℕ) : (WriteVarInt n).length = GetSizeOfVarInt n := by
  rw [WriteVarInt, List.length_reverse, length_varIntTmp]

/-! ### Reading -/

/-- One digit read into the value `a`: the guards pass while the new value fits in `w` bits. -/
theorem readVarIntLoop_cons {w a : ℕ} (b : UInt8) (s : List UInt8)
    (hfit : a * 128 + b.toNat % 128 < 2 ^ w) :
    readVarIntLoop w a (b :: s) =
      if b &&& 0x80 ≠ 0 then
        if a * 128 + b.toNat % 128 = 2 ^ w - 1 then .error "ReadVarInt(): size too large"
        else readVarIntLoop w (a * 128 + b.toNat % 128 + 1) s
      else .ok (a * 128 + b.toNat % 128, s) := by
  have hguard : ¬(2 ^ w - 1) >>> 7 < a := by
    rw [Nat.shiftRight_eq_div_pow]
    omega
  have hvalue : (a <<< 7 ||| (b &&& 0x7F).toNat) % 2 ^ w = a * 128 + b.toNat % 128 := by
    rw [toNat_and_0x7F, ← Nat.shiftLeft_add_eq_or_of_lt (Nat.mod_lt _ (by omega)),
      Nat.shiftLeft_eq]
    exact Nat.mod_eq_of_lt hfit
  simp only [readVarIntLoop, hguard, if_false, hvalue]

/-- Reading the digits before the last of `m + 1`: the value read is `m + 1`. -/
theorem readVarIntLoop_reverse_varIntTmp {w m : ℕ} (hm : m + 1 < 2 ^ w) (s : List UInt8) :
    readVarIntLoop w 0 ((varIntTmp m 1).reverse ++ s) = readVarIntLoop w (m + 1) s := by
  induction m using Nat.strong_induction_on generalizing s with
  | _ m ih =>
    rw [reverse_varIntTmp_one]
    split_ifs with hsmall
    · have hb := toNat_ofNat_or_0x80 (show m < 128 by omega)
      rw [List.singleton_append, readVarIntLoop_cons _ _ (by omega), hb,
        if_pos (by rw [Ne, and_0x80_eq_zero_iff, hb]; omega), if_neg (by omega)]
      congr 1
      omega
    · have hb := toNat_ofNat_or_0x80 (Nat.mod_lt m (show 128 > 0 by omega))
      rw [List.append_assoc, List.singleton_append, ih _ (by omega) (by omega),
        show m / 128 - 1 + 1 = m / 128 by omega, readVarIntLoop_cons _ _ (by omega), hb,
        if_pos (by rw [Ne, and_0x80_eq_zero_iff, hb]; omega), if_neg (by omega)]
      congr 1
      omega

theorem ReadVarInt_WriteVarInt {w n : ℕ} (hn : n < 2 ^ w) (rest : List UInt8) :
    ReadVarInt w (WriteVarInt n ++ rest) = .ok (n, rest) := by
  rw [ReadVarInt, WriteVarInt_eq]
  split_ifs with hsmall
  · have hb : (UInt8.ofNat n).toNat = n := by
      rw [UInt8.toNat_ofNat']
      omega
    rw [List.singleton_append, readVarIntLoop_cons _ _ (by omega), hb,
      if_neg (by rw [not_not, and_0x80_eq_zero_iff, hb]; omega)]
    simp [Nat.mod_eq_of_lt (show n < 128 by omega)]
  · have hb : (UInt8.ofNat (n % 128)).toNat = n % 128 := by
      rw [UInt8.toNat_ofNat']
      omega
    rw [List.append_assoc, List.singleton_append, readVarIntLoop_reverse_varIntTmp (by omega),
      show n / 128 - 1 + 1 = n / 128 by omega, readVarIntLoop_cons _ _ (by omega), hb,
      if_neg (by rw [not_not, and_0x80_eq_zero_iff, hb]; omega)]
    congr 2
    omega

/-- What the loop of `ReadVarInt` accepts, from a value `a` read so far: with the digits of `a`
in front, the encoding of what it returns. The induction is on the stream. -/
theorem readVarIntLoop_eq_ok {w : ℕ} (hw : 7 ≤ w) {s : List UInt8} :
    ∀ {a n : ℕ} {rest : List UInt8}, readVarIntLoop w a s = .ok (n, rest) →
      n < 2 ^ w ∧
        (if a = 0 then [] else (varIntTmp (a - 1) 1).reverse) ++ s = WriteVarInt n ++ rest := by
  induction s with
  | nil => intro a n rest h; simp [readVarIntLoop] at h
  | cons b s ih =>
    intro a n rest h
    have hw' : 128 ≤ 2 ^ w := le_trans (by norm_num) (Nat.pow_le_pow_right (by norm_num) hw)
    have hguard : a ≤ (2 ^ w - 1) / 128 := by
      by_contra hbig
      simp [readVarIntLoop, Nat.shiftRight_eq_div_pow, show (2 ^ w - 1) / 128 < a by omega] at h
    have hfit : a * 128 + b.toNat % 128 < 2 ^ w := by
      have := Nat.div_mul_le_self (2 ^ w - 1) 128
      have := Nat.mod_lt b.toNat (show 128 > 0 by omega)
      -- `2 ^ w - 1` is `127` modulo `128`, as `128` divides `2 ^ w`
      have hdvd : 128 ∣ 2 ^ w := by simpa using Nat.pow_dvd_pow 2 hw
      omega
    rw [readVarIntLoop_cons b s hfit] at h
    by_cases hcont : b &&& 0x80 = 0
    · -- the last digit
      rw [if_neg (not_not.mpr hcont)] at h
      cases h
      have hb : b.toNat < 128 := (and_0x80_eq_zero_iff b).mp hcont
      refine ⟨hfit, ?_⟩
      rw [WriteVarInt_eq]
      split_ifs with ha hsmall hsmall
      · have hbyte : UInt8.ofNat (a * 128 + b.toNat % 128) = b := by
          apply UInt8.toNat_inj.mp
          rw [UInt8.toNat_ofNat', ha]
          omega
        simp [hbyte]
      · omega
      · omega
      · have hbyte : UInt8.ofNat ((a * 128 + b.toNat % 128) % 128) = b := by
          apply UInt8.toNat_inj.mp
          rw [UInt8.toNat_ofNat']
          omega
        rw [show (a * 128 + b.toNat % 128) / 128 - 1 = a - 1 by omega, hbyte]
        simp
    · -- a digit with the high bit: the value read so far grows by it, plus one
      rw [if_pos hcont] at h
      split_ifs at h with hmax
      have hb : 128 ≤ b.toNat := by
        by_contra hlt
        exact hcont ((and_0x80_eq_zero_iff b).mpr (by omega))
      obtain ⟨hn, heq⟩ := ih h
      refine ⟨hn, ?_⟩
      rw [if_neg (by omega), Nat.add_sub_cancel, reverse_varIntTmp_one] at heq
      rw [← heq]
      split_ifs with ha hsmall hsmall
      · rw [ha, zero_mul, zero_add, ← eq_ofNat_or_0x80 hb]
        simp
      · omega
      · omega
      · rw [show (a * 128 + b.toNat % 128) / 128 - 1 = a - 1 by omega,
          show (a * 128 + b.toNat % 128) % 128 = b.toNat % 128 by omega, ← eq_ofNat_or_0x80 hb]
        simp

/-- Both codes are canonical: each reads back what it writes, whatever follows, in as many
bytes as its size function counts, and accepts nothing but such an encoding. -/
theorem CompactSize_VarInt_canonical :
    (∀ n ≤ MAX_SIZE, ∀ rest, ReadCompactSize (WriteCompactSize n ++ rest) = .ok (n, rest) ∧
      (WriteCompactSize n).length = GetSizeOfCompactSize n) ∧
    (∀ s n rest, ReadCompactSize s = .ok (n, rest) → s = WriteCompactSize n ++ rest) ∧
    (∀ w n, n < 2 ^ w → ∀ rest, ReadVarInt w (WriteVarInt n ++ rest) = .ok (n, rest) ∧
      (WriteVarInt n).length = GetSizeOfVarInt n) ∧
    (∀ w, 7 ≤ w → ∀ s n rest, ReadVarInt w s = .ok (n, rest) →
      n < 2 ^ w ∧ s = WriteVarInt n ++ rest) := by
  refine ⟨fun n hn rest => ⟨ReadCompactSize_eq_ok_iff.mpr ⟨hn, rfl⟩, length_WriteCompactSize n⟩,
    fun s n rest h => (ReadCompactSize_eq_ok_iff.mp h).2,
    fun w n hn rest => ⟨ReadVarInt_WriteVarInt hn rest, length_WriteVarInt n⟩,
    fun w hw s n rest h => ?_⟩
  simpa using readVarIntLoop_eq_ok hw h

/-- The two codes on the length `300`, which takes a marker byte as a CompactSize and two
digits as a VarInt. -/
theorem CompactSize_VarInt_canonical_300 :
    ReadCompactSize (WriteCompactSize 300 ++ []) = .ok (300, []) ∧
      ReadVarInt 64 (WriteVarInt 300 ++ []) = .ok (300, []) :=
  ⟨(CompactSize_VarInt_canonical.1 300 (by decide) []).1,
    (CompactSize_VarInt_canonical.2.2.1 64 300 (by norm_num) []).1⟩

end HydraNode
