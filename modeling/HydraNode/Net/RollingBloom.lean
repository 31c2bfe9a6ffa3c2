import Mathlib

/-!
# The rolling bloom filter

`CRollingBloomFilter` (`bloom.cpp`) keeps the last few thousand inventory items a peer has seen.
Each bit position of the filter holds a two-bit generation number, its low bit in one word of a
pair and its high bit in the other: `0` is unset, `1`, `2` and `3` are the generation that set it.
Inserting into a full generation starts the next one, wiping every position labelled with the
number being reused. A key's `nHashFuncs` positions come from `MurmurHash3`, a parameter here.

The generations hold `⌈nElements / 2⌉` keys each, and a key survives as long as its generation is
one of the last three: a later key may relabel its positions, but only with a newer number, and a
wipe clears the number of the generation three back. So every key among the last `nElements`
inserted since a reset is found (`rolling_bloom_no_false_negatives`), and every read and write
stays inside `data`, for every hash function.

That needs a non-empty `data`. At `nElements = 2 ^ 32 - 1`, `nElements + 1` wraps to `0`, so a
generation holds no keys, the size formula gets `0` elements and makes no words, and the first
insertion writes past the end (`rolling_bloom_empty_at_uint_max`).

The floating-point sizing is not modelled: `nHashFuncs` and `nFilterBits` are what it computes,
the latter as a function of the element count. A zero count gives `0` bits, its numerator being
zero. The words are kept as the pairs the positions use, `data[2 i]` and `data[2 i + 1]`.

## Main definitions

* `CRollingBloomFilter`, `CRollingBloomFilter.insert`, `CRollingBloomFilter.contains`,
  `CRollingBloomFilter.reset`, `CRollingBloomFilter.new`
* `CRollingBloomFilter.labelAt` — the generation number a position holds

## Main results

* `labelAt_map_wipePair`, `labelAt_set_setLabel` — the two writes on the labels
* `contains_eq` — a lookup answers whether every position of the key is labelled
* `insert_recent` — one insertion keeps the `Window` of recent keys
* `insertKeys_recent`, `Reachable.sized` — the same over runs
* `rolling_bloom_no_false_negatives`, `rolling_bloom_empty_at_uint_max`
-/

namespace HydraNode

/-- `FastMod(x, n)`: `((uint64_t)x * (uint64_t)n) >> 32`, read back as a `uint32_t`. -/
def FastMod (x : UInt32) (n : ℕ) : UInt32 :=
  ((x.toUInt64 * n.toUInt64) >>> 32).toUInt32

/-- Below `2 ^ 32` the product does not wrap: `FastMod x n` is `⌊x n / 2 ^ 32⌋`. -/
theorem FastMod_toNat (x : UInt32) {n : ℕ} (hn : n < 2 ^ 32) :
    (FastMod x n).toNat = x.toNat * n / 2 ^ 32 := by
  have hprod : x.toNat * n < 2 ^ 64 := by
    calc x.toNat * n < 2 ^ 32 * 2 ^ 32 := Nat.mul_lt_mul'' x.toNat_lt hn
      _ = 2 ^ 64 := by norm_num
  simp only [FastMod, UInt64.toNat_toUInt32, UInt64.toNat_shiftRight, UInt64.toNat_mul,
    UInt32.toNat_toUInt64, Nat.toUInt64_eq, UInt64.toNat_ofNat']
  rw [Nat.mod_eq_of_lt (show n < 2 ^ 64 by omega), Nat.mod_eq_of_lt hprod,
    show UInt64.toNat 32 % 64 = 32 from rfl, Nat.shiftRight_eq_div_pow]
  apply Nat.mod_eq_of_lt
  rw [Nat.div_lt_iff_lt_mul (by norm_num)]
  calc x.toNat * n < 2 ^ 64 := hprod
    _ = 2 ^ 32 * 2 ^ 32 := by norm_num

theorem FastMod_lt (x : UInt32) {n : ℕ} (hn0 : 0 < n) (hn : n < 2 ^ 32) : (FastMod x n).toNat < n := by
  rw [FastMod_toNat x hn, Nat.div_lt_iff_lt_mul (by norm_num), Nat.mul_comm]
  exact Nat.mul_lt_mul_of_pos_left x.toNat_lt hn0

/-- The filter. `data` holds the word pairs `data[2 i]`, `data[2 i + 1]` of the source's vector,
whose size is twice the number of pairs. -/
structure CRollingBloomFilter where
  nEntriesPerGeneration : ℕ
  nEntriesThisGeneration : ℕ
  nGeneration : ℕ
  data : List (UInt64 × UInt64)
  nTweak : UInt32
  nHashFuncs : ℕ
  deriving DecidableEq, Repr

namespace CRollingBloomFilter

variable (MurmurHash3 : UInt32 → List UInt8 → UInt32)

/-- `RollingBloomHash(nHashNum, nTweak, vDataToHash)`. -/
def RollingBloomHash (nHashNum : ℕ) (nTweak : UInt32) (vDataToHash : List UInt8) : UInt32 :=
  MurmurHash3 (nHashNum.toUInt32 * 0xFBA4C795 + nTweak) vDataToHash

/-- The pair index and the bit a hash value selects: `pos = FastMod(h, data.size())` picks the
pair `pos / 2`, that is the words `pos & ~1` and `pos | 1`, and `h & 0x3F` the bit. -/
def position (nPairs : ℕ) (h : UInt32) : ℕ × ℕ :=
  ((FastMod h (2 * nPairs)).toNat / 2, (h &&& 0x3F).toNat)

/-- The wipe loop of `insert` on one word pair: clear the bits labelled with the new generation. -/
def wipePair (nGeneration : ℕ) (p : UInt64 × UInt64) : UInt64 × UInt64 :=
  let nGenerationMask1 : UInt64 := (0 : UInt64) - (nGeneration &&& 1).toUInt64
  let nGenerationMask2 : UInt64 := (0 : UInt64) - (nGeneration >>> 1).toUInt64
  let mask := (p.1 ^^^ nGenerationMask1) ||| (p.2 ^^^ nGenerationMask2)
  (p.1 &&& mask, p.2 &&& mask)

/-- The two writes of `insert` at one position: the bit takes the generation's two bits. -/
def setLabel (nGeneration bit : ℕ) (p : UInt64 × UInt64) : UInt64 × UInt64 :=
  ((p.1 &&& ~~~((1 : UInt64) <<< bit.toUInt64)) ||| (nGeneration &&& 1).toUInt64 <<< bit.toUInt64,
    (p.2 &&& ~~~((1 : UInt64) <<< bit.toUInt64)) ||| (nGeneration >>> 1).toUInt64 <<< bit.toUInt64)

/-- The write of one hash value; `none` for a position past the end of `data`. -/
def insertHash (nGeneration : ℕ) (data : List (UInt64 × UInt64)) (h : UInt32) :
    Option (List (UInt64 × UInt64)) :=
  let (i, bit) := position data.length h
  data[i]?.map fun p => data.set i (setLabel nGeneration bit p)

/-- Start the next generation when this one is full, wiping the positions of the generation three
back. -/
def nextGeneration (f : CRollingBloomFilter) : CRollingBloomFilter :=
  if f.nEntriesThisGeneration = f.nEntriesPerGeneration then
    let nGeneration := if f.nGeneration + 1 = 4 then 1 else f.nGeneration + 1
    { f with nEntriesThisGeneration := 0, nGeneration := nGeneration,
             data := f.data.map (wipePair nGeneration) }
  else f

/-- `CRollingBloomFilter::insert(vKey)`; `none` for a write past the end of `data`. -/
def insert (f : CRollingBloomFilter) (vKey : List UInt8) : Option CRollingBloomFilter :=
  let f := nextGeneration f
  let f := { f with nEntriesThisGeneration := f.nEntriesThisGeneration + 1 }
  ((List.range f.nHashFuncs).foldlM
      (fun data n => insertHash f.nGeneration data (RollingBloomHash MurmurHash3 n f.nTweak vKey))
      f.data).map fun data => { f with data := data }

/-- The loop of `contains` over the hash numbers, returning `false` at the first unset position;
`none` for a read past the end of `data`. -/
def containsLoop (f : CRollingBloomFilter) (vKey : List UInt8) : List ℕ → Option Bool
  | [] => some true
  | n :: ns =>
    let (i, bit) := position f.data.length (RollingBloomHash MurmurHash3 n f.nTweak vKey)
    f.data[i]? >>= fun p =>
    if ((p.1 ||| p.2) >>> bit.toUInt64) &&& 1 = 0 then some false
    else containsLoop f vKey ns

/-- `CRollingBloomFilter::contains(vKey)`. -/
def contains (f : CRollingBloomFilter) (vKey : List UInt8) : Option Bool :=
  containsLoop MurmurHash3 f vKey (List.range f.nHashFuncs)

/-- `CRollingBloomFilter::reset()`, with the value of `GetRand` as `nTweak`. -/
def reset (f : CRollingBloomFilter) (nTweak : UInt32) : CRollingBloomFilter :=
  { f with nTweak := nTweak, nEntriesThisGeneration := 0, nGeneration := 1,
           data := f.data.map fun _ => (0, 0) }

/-- `CRollingBloomFilter(nElements, fpRate)`, with the hash count and the bit count its
floating-point formulas compute, and the value of `GetRand` in `reset`. `nEntriesPerGeneration`
is an `int`, and `nEntriesPerGeneration * 3` an `int` product, which overflows, with undefined
behaviour, once `nElements` passes `1431655764`. The product is stored into a `uint32_t`, and the
model keeps it modulo `2 ^ 32`; below that bound it is the exact product
(`nMaxElements_exact`). -/
def new (nElements : UInt32) (nHashFuncs : ℕ) (nFilterBitsOf : UInt32 → UInt32)
    (nTweak : UInt32) : CRollingBloomFilter :=
  let nEntriesPerGeneration := (nElements + 1) / 2
  let nMaxElements := nEntriesPerGeneration * 3
  let nFilterBits := nFilterBitsOf nMaxElements
  -- `data.resize(((nFilterBits + 63) / 64) << 1)`: that many pairs
  reset ⟨nEntriesPerGeneration.toNat, 0, 1,
    List.replicate ((nFilterBits + 63) / 64).toNat (0, 0), 0, nHashFuncs⟩ nTweak

/-- Below `1431655765` elements the `int` product `nEntriesPerGeneration * 3` does not overflow,
and the `uint32_t` it is stored into holds it exactly. -/
theorem nMaxElements_exact {nElements : UInt32} (h : nElements.toNat < 1431655765) :
    ((nElements + 1) / 2 * 3).toNat = (nElements.toNat + 1) / 2 * 3 ∧
      (nElements.toNat + 1) / 2 * 3 < 2 ^ 31 := by
  simp only [UInt32.toNat_mul, UInt32.toNat_div, UInt32.toNat_add, UInt32.reduceToNat]
  omega

/-! ## Labels -/

/-- Bit `i` of a word. -/
def bitAt (x : UInt64) (i : ℕ) : Bool := x.toBitVec.getLsbD i

/-- The generation number bit `b` of a word pair holds. -/
def pairLabel (p : UInt64 × UInt64) (b : ℕ) : ℕ := (bitAt p.1 b).toNat + 2 * (bitAt p.2 b).toNat

/-- The generation number at bit `b` of pair `i`; `0` past the end. -/
def labelAt (data : List (UInt64 × UInt64)) (i b : ℕ) : ℕ := ((data[i]?).map (pairLabel · b)).getD 0

theorem pairLabel_le (p : UInt64 × UInt64) (b : ℕ) : pairLabel p b ≤ 3 := by
  unfold pairLabel
  cases bitAt p.1 b <;> cases bitAt p.2 b <;> decide

@[simp] theorem bitAt_and (x y : UInt64) (i : ℕ) : bitAt (x &&& y) i = (bitAt x i && bitAt y i) := by
  simp [bitAt]

@[simp] theorem bitAt_or (x y : UInt64) (i : ℕ) : bitAt (x ||| y) i = (bitAt x i || bitAt y i) := by
  simp [bitAt]

@[simp] theorem bitAt_xor (x y : UInt64) (i : ℕ) : bitAt (x ^^^ y) i = (bitAt x i ^^ bitAt y i) := by
  simp [bitAt]

theorem bitAt_not (x : UInt64) {i : ℕ} (hi : i < 64) : bitAt (~~~x) i = !bitAt x i := by
  simp [bitAt, hi]

/-- A bit `v ≤ 1` shifted to `b`. -/
theorem bitAt_natCast_shiftLeft {v b : ℕ} (hv : v ≤ 1) (hb : b < 64) (i : ℕ) :
    bitAt (v.toUInt64 <<< b.toUInt64) i = (decide (i = b) && decide (v = 1)) := by
  have hshift : (b.toUInt64.toBitVec % 64).toNat = b := by
    rw [BitVec.toNat_umod, show (64 : BitVec 64).toNat = 64 from rfl]
    simp only [UInt64.toNat_toBitVec, Nat.toUInt64_eq, UInt64.toNat_ofNat']
    omega
  rcases Nat.le_one_iff_eq_zero_or_eq_one.mp hv with rfl | rfl
  · simp [bitAt]
  · simp only [bitAt, UInt64.toBitVec_shiftLeft, BitVec.shiftLeft_eq', hshift,
      BitVec.getLsbD_shiftLeft]
    by_cases hib : i = b
    · subst hib
      simp [hb]
    · by_cases hlt : i < b
      · simp [hlt, hib]
      · simp [hib]
        omega

theorem bitAt_one_shiftLeft {b : ℕ} (hb : b < 64) (i : ℕ) :
    bitAt ((1 : UInt64) <<< b.toUInt64) i = decide (i = b) := by
  have := bitAt_natCast_shiftLeft (v := 1) le_rfl hb i
  simpa using this

/-- The masks of the wipe: `0 - v` is all ones for `v = 1` and zero for `v = 0`. -/
theorem bitAt_zero_sub {v i : ℕ} (hv : v ≤ 1) (hi : i < 64) :
    bitAt ((0 : UInt64) - v.toUInt64) i = decide (v = 1) := by
  rcases Nat.le_one_iff_eq_zero_or_eq_one.mp hv with rfl | rfl
  · simp [bitAt]
  · have : (0 : UInt64) - (1 : ℕ).toUInt64 = ~~~0 := by decide
    rw [this, bitAt_not _ hi]
    simp [bitAt]

theorem and_one_le (g : ℕ) : g &&& 1 ≤ 1 := Nat.and_le_right

theorem shiftRight_one_le {g : ℕ} (hg : g ≤ 3) : g >>> 1 ≤ 1 := by
  rw [Nat.shiftRight_eq_div_pow]
  omega

/-- A write of generation `g` sets its own bit's label to `g` and leaves the others. -/
theorem pairLabel_setLabel {g b b' : ℕ} (hg : g ≤ 3) (hb : b < 64) (hb' : b' < 64)
    (p : UInt64 × UInt64) :
    pairLabel (setLabel g b p) b' = if b' = b then g else pairLabel p b' := by
  unfold setLabel pairLabel
  simp only [bitAt_or, bitAt_and, bitAt_not _ hb', bitAt_one_shiftLeft hb,
    bitAt_natCast_shiftLeft (and_one_le g) hb, bitAt_natCast_shiftLeft (shiftRight_one_le hg) hb]
  by_cases hbb : b' = b
  · simp only [hbb, decide_true, Bool.not_true, Bool.and_false, Bool.false_or, Bool.true_and,
      if_true]
    rw [Nat.shiftRight_eq_div_pow, Nat.and_one_is_mod]
    interval_cases g <;> decide
  · simp [hbb]

/-- The wipe of generation `g` clears exactly the bits labelled `g`. -/
theorem pairLabel_wipePair {g b : ℕ} (hg1 : 1 ≤ g) (hg : g ≤ 3) (hb : b < 64)
    (p : UInt64 × UInt64) :
    pairLabel (wipePair g p) b = if pairLabel p b = g then 0 else pairLabel p b := by
  unfold wipePair pairLabel
  simp only [bitAt_and, bitAt_or, bitAt_xor, bitAt_zero_sub (and_one_le g) hb,
    bitAt_zero_sub (shiftRight_one_le hg) hb]
  rw [Nat.shiftRight_eq_div_pow, Nat.and_one_is_mod]
  interval_cases g <;> cases bitAt p.1 b <;> cases bitAt p.2 b <;> decide

/-- A lookup reads bit `b` of the two words of a pair at once. -/
theorem shiftRight_and_one_eq_zero (x : UInt64) {b : ℕ} (hb : b < 64) :
    (x >>> b.toUInt64) &&& 1 = 0 ↔ bitAt x b = false := by
  rw [← UInt64.toNat_inj]
  simp only [bitAt, UInt64.toNat_and, UInt64.toNat_shiftRight, Nat.toUInt64_eq,
    UInt64.toNat_ofNat', UInt64.toNat_one, UInt64.toNat_zero, ← BitVec.testBit_toNat,
    UInt64.toNat_toBitVec]
  rw [Nat.mod_eq_of_lt (show b < 2 ^ 64 by omega), Nat.mod_eq_of_lt hb, Nat.testBit, Nat.and_comm]
  simp

theorem pairLabel_eq_zero_iff (p : UInt64 × UInt64) (b : ℕ) :
    pairLabel p b = 0 ↔ bitAt (p.1 ||| p.2) b = false := by
  unfold pairLabel
  rw [bitAt_or]
  cases bitAt p.1 b <;> cases bitAt p.2 b <;> decide

@[simp] theorem labelAt_map_wipePair {g b : ℕ} (hg1 : 1 ≤ g) (hg : g ≤ 3) (hb : b < 64)
    (data : List (UInt64 × UInt64)) (i : ℕ) :
    labelAt (data.map (wipePair g)) i b = if labelAt data i b = g then 0 else labelAt data i b := by
  unfold labelAt
  rw [List.getElem?_map]
  cases data[i]? with
  | none => simp
  | some p => simp [pairLabel_wipePair hg1 hg hb]

theorem labelAt_set_setLabel {g bit b : ℕ} (hg : g ≤ 3) (hbit : bit < 64) (hb : b < 64)
    {data : List (UInt64 × UInt64)} {i : ℕ} (hi : i < data.length) (j : ℕ) :
    labelAt (data.set i (setLabel g bit data[i])) j b =
      if j = i ∧ b = bit then g else labelAt data j b := by
  unfold labelAt
  by_cases hji : j = i
  · subst hji
    simp [hi, pairLabel_setLabel hg hbit hb]
  · simp [Ne.symm hji, hji]

/-! ## Positions and writes -/

section Writes

variable {data : List (UInt64 × UInt64)}

/-- The data sizes the positions stay inside: at least one pair, and fewer than `2 ^ 32` words so
that `FastMod` does not wrap. -/
def FitsFastMod (data : List (UInt64 × UInt64)) : Prop := 0 < data.length ∧ 2 * data.length < 2 ^ 32

theorem position_fst_lt (hd : FitsFastMod data) (h : UInt32) : (position data.length h).1 < data.length := by
  have := FastMod_lt h (n := 2 * data.length) (by have := hd.1; omega) hd.2
  simp only [position]
  omega

theorem position_snd_lt (n : ℕ) (h : UInt32) : (position n h).2 < 64 := by
  simp only [position, UInt32.toNat_and]
  exact lt_of_le_of_lt Nat.and_le_right (by decide)

/-- One write: the label at the hash's position becomes `g`, every other label stays. -/
theorem insertHash_spec {g : ℕ} (hg : g ≤ 3) (hd : FitsFastMod data) (h : UInt32) :
    ∃ data', insertHash g data h = some data' ∧ data'.length = data.length ∧
      ∀ j b, b < 64 → labelAt data' j b =
        if (j, b) = position data.length h then g else labelAt data j b := by
  have hi := position_fst_lt hd h
  have hbit := position_snd_lt data.length h
  refine ⟨data.set (position data.length h).1 (setLabel g (position data.length h).2
    data[(position data.length h).1]), ?_, by simp, ?_⟩
  · simp [insertHash, List.getElem?_eq_getElem hi]
  · intro j b hb
    rw [labelAt_set_setLabel hg hbit hb hi]
    simp only [Prod.ext_iff]

/-- The writes of one insertion, for the hash functions `ns`: the labels at their positions become
`g`, every other label stays. -/
theorem foldlM_insertHash_spec {g : ℕ} (hg : g ≤ 3) (hash : ℕ → UInt32) (ns : List ℕ) :
    ∀ data : List (UInt64 × UInt64), FitsFastMod data →
      ∃ data', ns.foldlM (fun d n => insertHash g d (hash n)) data = some data' ∧
        data'.length = data.length ∧
        ∀ j b, b < 64 → labelAt data' j b =
          if (j, b) ∈ ns.map (fun n => position data.length (hash n)) then g
          else labelAt data j b := by
  induction ns with
  | nil =>
    intro data _
    exact ⟨data, rfl, rfl, fun j b _ => by simp⟩
  | cons n ns ih =>
    intro data hd
    obtain ⟨d1, h1, hlen1, hlab1⟩ := insertHash_spec hg hd (hash n)
    obtain ⟨d2, h2, hlen2, hlab2⟩ := ih d1 (by rw [FitsFastMod, hlen1]; exact hd)
    refine ⟨d2, by simp [h1, h2], hlen2.trans hlen1, fun j b hb => ?_⟩
    rw [hlab2 j b hb, hlab1 j b hb, hlen1]
    by_cases hn : (j, b) = position data.length (hash n) <;> simp [hn]

end Writes

theorem labelAt_of_lt {data : List (UInt64 × UInt64)} {i : ℕ} (hi : i < data.length) (b : ℕ) :
    labelAt data i b = pairLabel data[i] b := by
  simp [labelAt, List.getElem?_eq_getElem hi]

/-! ## Lookups -/

/-- The pair and bit of each of a key's hash functions. -/
def keyPositions (f : CRollingBloomFilter) (vKey : List UInt8) : List (ℕ × ℕ) :=
  (List.range f.nHashFuncs).map fun n =>
    position f.data.length (RollingBloomHash MurmurHash3 n f.nTweak vKey)

/-- The lookup loop answers whether every position of `ns` holds a label, and never reads past
`data`. -/
theorem containsLoop_eq (f : CRollingBloomFilter) (vKey : List UInt8) (hd : FitsFastMod f.data)
    (ns : List ℕ) :
    containsLoop MurmurHash3 f vKey ns = some (decide (∀ p ∈ ns.map fun n =>
      position f.data.length (RollingBloomHash MurmurHash3 n f.nTweak vKey),
        labelAt f.data p.1 p.2 ≠ 0)) := by
  induction ns with
  | nil => simp [containsLoop]
  | cons n ns ih =>
    have hi := position_fst_lt hd (RollingBloomHash MurmurHash3 n f.nTweak vKey)
    have hbit := position_snd_lt f.data.length (RollingBloomHash MurmurHash3 n f.nTweak vKey)
    rcases hp : position f.data.length (RollingBloomHash MurmurHash3 n f.nTweak vKey) with ⟨i, bit⟩
    rw [hp] at hi hbit
    simp only at hi hbit
    have hlab : labelAt f.data i bit = pairLabel f.data[i] bit := labelAt_of_lt hi bit
    simp only [containsLoop, hp, List.getElem?_eq_getElem hi, Option.bind_eq_bind, Option.bind_some,
      shiftRight_and_one_eq_zero _ hbit, ← pairLabel_eq_zero_iff, ih, List.map_cons,
      List.forall_mem_cons, hlab]
    by_cases h0 : pairLabel f.data[i] bit = 0 <;> simp [h0]

/-- `contains` answers whether every position of the key holds a label. -/
theorem contains_eq (f : CRollingBloomFilter) (vKey : List UInt8) (hd : FitsFastMod f.data) :
    contains MurmurHash3 f vKey =
      some (decide (∀ p ∈ keyPositions MurmurHash3 f vKey, labelAt f.data p.1 p.2 ≠ 0)) :=
  containsLoop_eq MurmurHash3 f vKey hd _

/-! ## Insertion -/

theorem nextGeneration_of_ne {f : CRollingBloomFilter}
    (h : f.nEntriesThisGeneration ≠ f.nEntriesPerGeneration) : nextGeneration f = f := by
  simp [nextGeneration, h]

theorem nextGeneration_of_eq {f : CRollingBloomFilter}
    (h : f.nEntriesThisGeneration = f.nEntriesPerGeneration) :
    nextGeneration f =
      { f with nEntriesThisGeneration := 0,
               nGeneration := if f.nGeneration + 1 = 4 then 1 else f.nGeneration + 1,
               data := f.data.map (wipePair (if f.nGeneration + 1 = 4 then 1 else f.nGeneration + 1)) } := by
  simp [nextGeneration, h]

@[simp] theorem nextGeneration_nEntriesPerGeneration (f : CRollingBloomFilter) :
    (nextGeneration f).nEntriesPerGeneration = f.nEntriesPerGeneration := by
  unfold nextGeneration; split <;> rfl

@[simp] theorem nextGeneration_nTweak (f : CRollingBloomFilter) :
    (nextGeneration f).nTweak = f.nTweak := by
  unfold nextGeneration; split <;> rfl

@[simp] theorem nextGeneration_nHashFuncs (f : CRollingBloomFilter) :
    (nextGeneration f).nHashFuncs = f.nHashFuncs := by
  unfold nextGeneration; split <;> rfl

@[simp] theorem nextGeneration_data_length (f : CRollingBloomFilter) :
    (nextGeneration f).data.length = f.data.length := by
  unfold nextGeneration; split <;> simp

theorem nextGeneration_nGeneration_le {f : CRollingBloomFilter} (hg : f.nGeneration ≤ 3) :
    (nextGeneration f).nGeneration ≤ 3 := by
  unfold nextGeneration
  split
  · dsimp only
    split <;> omega
  · exact hg

theorem foldlM_insertHash_length {g : ℕ} (hash : ℕ → UInt32) (ns : List ℕ) :
    ∀ data data' : List (UInt64 × UInt64),
      ns.foldlM (fun d n => insertHash g d (hash n)) data = some data' →
        data'.length = data.length := by
  induction ns with
  | nil =>
    intro data data' h
    simp only [List.foldlM_nil, Option.pure_def, Option.some.injEq] at h
    rw [h]
  | cons n ns ih =>
    intro data data' h
    simp only [List.foldlM_cons, Option.bind_eq_bind, Option.bind_eq_some_iff] at h
    obtain ⟨d1, h1, h2⟩ := h
    have hlen1 : d1.length = data.length := by
      simp only [insertHash, Option.map_eq_some_iff] at h1
      obtain ⟨_, _, rfl⟩ := h1
      exact List.length_set
    rw [ih d1 data' h2, hlen1]

/-- An insertion that stays in bounds changes only the counters and the words, and keeps the
number of words. -/
theorem insert_shape {f f' : CRollingBloomFilter} {vKey : List UInt8}
    (h : insert MurmurHash3 f vKey = some f') :
    f'.nEntriesPerGeneration = f.nEntriesPerGeneration ∧ f'.nHashFuncs = f.nHashFuncs ∧
      f'.nTweak = f.nTweak ∧ f'.data.length = f.data.length := by
  simp only [insert, Option.map_eq_some_iff] at h
  obtain ⟨data', hfold, rfl⟩ := h
  have := foldlM_insertHash_length _ _ _ _ hfold
  simp_all

/-- One insertion: it starts the next generation if this one is full, then labels every position
of the key with the generation number, and stays in bounds. -/
theorem insert_spec (f : CRollingBloomFilter) (vKey : List UInt8) (hd : FitsFastMod f.data)
    (hg : (nextGeneration f).nGeneration ≤ 3) :
    ∃ data', insert MurmurHash3 f vKey =
        some { nextGeneration f with
               nEntriesThisGeneration := (nextGeneration f).nEntriesThisGeneration + 1,
               data := data' } ∧
      data'.length = f.data.length ∧
      ∀ j b, b < 64 → labelAt data' j b =
        if (j, b) ∈ keyPositions MurmurHash3 f vKey then (nextGeneration f).nGeneration
        else labelAt (nextGeneration f).data j b := by
  have hd' : FitsFastMod (nextGeneration f).data := by
    rw [FitsFastMod, nextGeneration_data_length]
    exact hd
  obtain ⟨data', hfold, hlen, hlab⟩ := foldlM_insertHash_spec hg
    (fun n => RollingBloomHash MurmurHash3 n f.nTweak vKey) (List.range f.nHashFuncs) _ hd'
  refine ⟨data', ?_, by simpa using hlen, fun j b hb => ?_⟩
  · simp [insert, hfold]
  · simpa [keyPositions] using hlab j b hb

/-! ## The window of recent keys -/

/-- The generation before `g` in the cycle `1, 2, 3`. -/
def prevGen (g : ℕ) : ℕ := if g = 1 then 3 else g - 1

/-- The labels a position of the key inserted `r` insertions back may hold, in a filter at
generation `g` with `c` keys in it and `E` per generation: `g` while the key is of this generation,
`g` or the one before while it is of the previous one, and some generation while it is of the one
before that. -/
def RecentLabel (E c g r l : ℕ) : Prop :=
  (r < c → l = g) ∧ (r < c + E → l = g ∨ l = prevGen g) ∧ (r < c + 2 * E → l ≠ 0)

instance (E c g r l : ℕ) : Decidable (RecentLabel E c g r l) := by
  unfold RecentLabel; infer_instance

theorem recentLabel_self {g : ℕ} (hg : g ≠ 0) (E c : ℕ) : RecentLabel E c g 0 g :=
  ⟨fun _ => rfl, fun _ => Or.inl rfl, fun _ => hg⟩

/-- An insertion within the generation: the positions it writes get the same number. -/
theorem recentLabel_write {E c g r l : ℕ} (hg : 1 ≤ g) (w : Prop) [Decidable w]
    (h : RecentLabel E c g r l) : RecentLabel E (c + 1) g (r + 1) (if w then g else l) := by
  obtain ⟨hcur, hprev, hold⟩ := h
  refine ⟨fun hr => ?_, fun hr => ?_, fun hr => ?_⟩ <;> split_ifs
  · rfl
  · exact hcur (by omega)
  · exact Or.inl rfl
  · exact hprev (by omega)
  · omega
  · exact hold (by omega)

/-- An insertion that starts generation `g'` after `g`: the wipe clears `g'`, which is neither `g`
nor the one before, and the positions it writes get `g'`. -/
theorem recentLabel_roll {E g r l : ℕ} (hg1 : 1 ≤ g) (hg : g ≤ 3) (w : Prop) [Decidable w]
    (h : RecentLabel E E g r l) :
    RecentLabel E 1 (if g + 1 = 4 then 1 else g + 1) (r + 1)
      (if w then (if g + 1 = 4 then 1 else g + 1)
       else if l = (if g + 1 = 4 then 1 else g + 1) then 0 else l) := by
  obtain ⟨hcur, hprev, _⟩ := h
  refine ⟨fun hr => by omega, fun hr => ?_, fun hr => ?_⟩
  · -- a key of the generation just closed
    rw [hcur (by omega)]
    interval_cases g <;> split_ifs <;> first | omega | simp [prevGen]
  · -- a key of the generation before: its label is `g` or the one before, both kept
    rcases hprev (by omega) with hl | hl <;> rw [hl] <;> interval_cases g <;> split_ifs <;>
      first | omega | simp [prevGen] at *

/-- The shape a filter keeps: at least one key per generation, and data that `FastMod` addresses
without wrapping. -/
structure Sized (f : CRollingBloomFilter) : Prop where
  entries_pos : 0 < f.nEntriesPerGeneration
  fits : FitsFastMod f.data

/-- The invariant of a run of insertions: `hist` holds the keys inserted since the reset, the
latest first, and every position of the key `r` back holds a `RecentLabel`. -/
structure Window (f : CRollingBloomFilter) (hist : List (List UInt8)) : Prop where
  gen_pos : 1 ≤ f.nGeneration
  gen_le : f.nGeneration ≤ 3
  count_le : f.nEntriesThisGeneration ≤ f.nEntriesPerGeneration
  recent : ∀ r k, hist[r]? = some k → ∀ p ∈ keyPositions MurmurHash3 f k,
    RecentLabel f.nEntriesPerGeneration f.nEntriesThisGeneration f.nGeneration r
      (labelAt f.data p.1 p.2)

theorem keyPositions_congr {f f' : CRollingBloomFilter} (hh : f'.nHashFuncs = f.nHashFuncs)
    (ht : f'.nTweak = f.nTweak) (hl : f'.data.length = f.data.length) (vKey : List UInt8) :
    keyPositions MurmurHash3 f' vKey = keyPositions MurmurHash3 f vKey := by
  simp [keyPositions, hh, ht, hl]

theorem keyPositions_snd_lt {f : CRollingBloomFilter} {vKey : List UInt8} {p : ℕ × ℕ}
    (hp : p ∈ keyPositions MurmurHash3 f vKey) : p.2 < 64 := by
  simp only [keyPositions, List.mem_map] at hp
  obtain ⟨n, _, rfl⟩ := hp
  exact position_snd_lt _ _

theorem keyPositions_insert {f f' : CRollingBloomFilter} {vKey : List UInt8}
    (h : insert MurmurHash3 f vKey = some f') (k : List UInt8) :
    keyPositions MurmurHash3 f' k = keyPositions MurmurHash3 f k := by
  obtain ⟨-, hh, ht, hl⟩ := insert_shape MurmurHash3 h
  exact keyPositions_congr MurmurHash3 hh ht hl k

theorem insert_sized {f f' : CRollingBloomFilter} {vKey : List UInt8} (hS : Sized f)
    (h : insert MurmurHash3 f vKey = some f') : Sized f' := by
  obtain ⟨hE, -, -, hlen⟩ := insert_shape MurmurHash3 h
  exact ⟨hE ▸ hS.entries_pos, by rw [FitsFastMod, hlen]; exact hS.fits⟩

/-- One insertion keeps the window: the new key is the latest, labelled with the current
generation, and every older key moves one back. -/
theorem insert_recent {f : CRollingBloomFilter} {hist : List (List UInt8)} (hS : Sized f)
    (hW : Window MurmurHash3 f hist) (vKey : List UInt8) :
    ∃ f', insert MurmurHash3 f vKey = some f' ∧ Window MurmurHash3 f' (vKey :: hist) := by
  obtain ⟨data', hins, hlen, hlab⟩ :=
    insert_spec MurmurHash3 f vKey hS.fits (nextGeneration_nGeneration_le hW.gen_le)
  refine ⟨_, hins, ?_⟩
  by_cases hc : f.nEntriesThisGeneration = f.nEntriesPerGeneration
  · -- the generation is full: the next one starts, with the wipe
    rw [nextGeneration_of_eq hc] at hlab hins ⊢
    have hpos := keyPositions_insert MurmurHash3 hins
    have hg' : 1 ≤ (if f.nGeneration + 1 = 4 then 1 else f.nGeneration + 1) := by split <;> omega
    have hg3 : (if f.nGeneration + 1 = 4 then 1 else f.nGeneration + 1) ≤ 3 := by
      have := hW.gen_le; split <;> omega
    refine ⟨hg', hg3, by dsimp only; have := hS.entries_pos; omega, ?_⟩
    intro r k hk p hp
    rw [hpos] at hp
    dsimp only
    rw [hlab p.1 p.2 (keyPositions_snd_lt MurmurHash3 hp),
      labelAt_map_wipePair hg' hg3 (keyPositions_snd_lt MurmurHash3 hp)]
    rcases r with _ | r
    · obtain rfl : k = vKey := by simpa using hk.symm
      rw [if_pos hp]
      exact recentLabel_self (by omega) _ _
    · have hold := hW.recent r k (by simpa using hk) p hp
      rw [hc] at hold
      exact recentLabel_roll hW.gen_pos hW.gen_le _ hold
  · -- the generation has room: the same number, one more key
    rw [nextGeneration_of_ne hc] at hlab hins ⊢
    have hpos := keyPositions_insert MurmurHash3 hins
    have hc' : f.nEntriesThisGeneration < f.nEntriesPerGeneration := by
      have := hW.count_le; omega
    refine ⟨hW.gen_pos, hW.gen_le, hc', ?_⟩
    intro r k hk p hp
    rw [hpos] at hp
    dsimp only
    rw [hlab p.1 p.2 (keyPositions_snd_lt MurmurHash3 hp)]
    rcases r with _ | r
    · obtain rfl : k = vKey := by simpa using hk.symm
      rw [if_pos hp]
      exact recentLabel_self (by have := hW.gen_pos; omega) _ _
    · exact recentLabel_write hW.gen_pos _ (hW.recent r k (by simpa using hk) p hp)

/-- With no words, the first write of an insertion is past the end. -/
theorem insert_eq_none_of_data_nil {f : CRollingBloomFilter} (hd : f.data = [])
    (hk : 0 < f.nHashFuncs) (vKey : List UInt8) : insert MurmurHash3 f vKey = none := by
  have hd' : (nextGeneration f).data = [] :=
    List.eq_nil_of_length_eq_zero (by rw [nextGeneration_data_length, hd]; rfl)
  obtain ⟨n, hn⟩ : ∃ n, f.nHashFuncs = n + 1 := ⟨_, (Nat.succ_pred_eq_of_pos hk).symm⟩
  simp [insert, hd', hn, List.range_succ_eq_map, insertHash]

/-- A run of insertions; `none` if one of them writes past the end. -/
def insertKeys (f : CRollingBloomFilter) (keys : List (List UInt8)) :
    Option CRollingBloomFilter :=
  keys.foldlM (insert MurmurHash3) f

/-- A run of insertions keeps the shape and the window, the keys joining the history latest first. -/
theorem insertKeys_recent (keys : List (List UInt8)) :
    ∀ (f : CRollingBloomFilter) (hist : List (List UInt8)), Sized f → Window MurmurHash3 f hist →
      ∃ f', insertKeys MurmurHash3 f keys = some f' ∧ Sized f' ∧
        f'.nEntriesPerGeneration = f.nEntriesPerGeneration ∧
        Window MurmurHash3 f' (keys.reverse ++ hist) := by
  induction keys with
  | nil =>
    intro f hist hS hW
    exact ⟨f, rfl, hS, rfl, hW⟩
  | cons k ks ih =>
    intro f hist hS hW
    obtain ⟨f1, h1, hW1⟩ := insert_recent MurmurHash3 hS hW k
    obtain ⟨f2, h2, hS2, hE2, hW2⟩ := ih f1 (k :: hist) (insert_sized MurmurHash3 hS h1) hW1
    refine ⟨f2, by simpa [insertKeys, h1] using h2, hS2,
      hE2.trans (insert_shape MurmurHash3 h1).1, by simpa using hW2⟩

theorem reset_sized {f : CRollingBloomFilter} (hS : Sized f) (nTweak : UInt32) :
    Sized (reset f nTweak) :=
  ⟨hS.entries_pos, by simpa [FitsFastMod, reset] using hS.fits⟩

/-- A reset starts an empty window. -/
theorem reset_window (f : CRollingBloomFilter) (nTweak : UInt32) :
    Window MurmurHash3 (reset f nTweak) [] :=
  ⟨le_rfl, by simp [reset], Nat.zero_le _, by simp⟩

/-- Every key of the last two generations' worth is found. -/
theorem contains_of_window {f : CRollingBloomFilter} {hist : List (List UInt8)} (hS : Sized f)
    (hW : Window MurmurHash3 f hist) {r : ℕ} {k : List UInt8} (hk : hist[r]? = some k)
    (hr : r < 2 * f.nEntriesPerGeneration) : contains MurmurHash3 f k = some true := by
  rw [contains_eq MurmurHash3 f k hS.fits]
  simp only [Option.some.injEq, decide_eq_true_eq]
  intro p hp
  exact (hW.recent r k hk p hp).2.2 (by omega)

/-- The filters a run from `f0` reaches: insertions that stay in bounds, and resets. -/
inductive Reachable (f0 : CRollingBloomFilter) : CRollingBloomFilter → Prop
  | start : Reachable f0 f0
  | ofInsert {f f' : CRollingBloomFilter} {vKey : List UInt8} :
      Reachable f0 f → insert MurmurHash3 f vKey = some f' → Reachable f0 f'
  | ofReset {f : CRollingBloomFilter} (nTweak : UInt32) :
      Reachable f0 f → Reachable f0 (reset f nTweak)

theorem Reachable.sized {f0 f : CRollingBloomFilter} (hS : Sized f0)
    (h : Reachable MurmurHash3 f0 f) :
    Sized f ∧ f.nEntriesPerGeneration = f0.nEntriesPerGeneration := by
  induction h with
  | start => exact ⟨hS, rfl⟩
  | ofInsert _ hins ih => exact ⟨insert_sized MurmurHash3 ih.1 hins, (insert_shape MurmurHash3 hins).1.trans ih.2⟩
  | ofReset nTweak _ ih => exact ⟨reset_sized ih.1 nTweak, ih.2⟩

/-- The constructed filter is the state after a reset with its own tweak. -/
theorem reset_new (nElements : UInt32) (nHashFuncs : ℕ) (nFilterBitsOf : UInt32 → UInt32)
    (nTweak : UInt32) :
    reset (new nElements nHashFuncs nFilterBitsOf nTweak) nTweak =
      new nElements nHashFuncs nFilterBitsOf nTweak := by
  simp [new, reset]

/-- Without wrapping, the constructor makes `⌈nElements / 2⌉` keys a generation and
`⌈nFilterBits / 64⌉` pairs: a filter of the right shape. -/
theorem new_sized {nElements : UInt32} (nHashFuncs : ℕ) {nFilterBitsOf : UInt32 → UInt32}
    (nTweak : UInt32) (hElements : 1 ≤ nElements.toNat) (hWrap : nElements.toNat + 1 < 2 ^ 32)
    (hBits : 1 ≤ (nFilterBitsOf ((nElements + 1) / 2 * 3)).toNat)
    (hBitsWrap : (nFilterBitsOf ((nElements + 1) / 2 * 3)).toNat + 63 < 2 ^ 32) :
    Sized (new nElements nHashFuncs nFilterBitsOf nTweak) ∧
      nElements.toNat ≤ 2 * (new nElements nHashFuncs nFilterBitsOf nTweak).nEntriesPerGeneration := by
  have hE : ((nElements + 1) / 2).toNat = (nElements.toNat + 1) / 2 := by
    simp only [UInt32.toNat_div, UInt32.toNat_add, UInt32.toNat_one]
    rw [Nat.mod_eq_of_lt hWrap]
    rfl
  have hL : ((nFilterBitsOf ((nElements + 1) / 2 * 3) + 63) / 64).toNat =
      ((nFilterBitsOf ((nElements + 1) / 2 * 3)).toNat + 63) / 64 := by
    simp only [UInt32.toNat_div, UInt32.toNat_add, show (63 : UInt32).toNat = 63 from rfl,
      show (64 : UInt32).toNat = 64 from rfl]
    rw [Nat.mod_eq_of_lt hBitsWrap]
  simp only [new, reset, hE]
  refine ⟨⟨?_, ?_⟩, ?_⟩
  · show 0 < (nElements.toNat + 1) / 2
    omega
  · simp only [FitsFastMod, List.length_map, List.length_replicate, hL]
    omega
  · omega

/-- At `nElements = 2 ^ 32 - 1` the count `nElements + 1` wraps to `0`: no keys a generation, no
words for any sizing proportional to the element count, and the first insertion writes past the
end of `data`. -/
theorem new_uint_max_empty (nHashFuncs : ℕ) (c nTweak : UInt32) (vKey : List UInt8) :
    (new 0xFFFFFFFF (nHashFuncs + 1) (fun m => c * m) nTweak).nEntriesPerGeneration = 0 ∧
      (new 0xFFFFFFFF (nHashFuncs + 1) (fun m => c * m) nTweak).data = [] ∧
      insert MurmurHash3 (new 0xFFFFFFFF (nHashFuncs + 1) (fun m => c * m) nTweak) vKey = none := by
  have hE : (new 0xFFFFFFFF (nHashFuncs + 1) (fun m => c * m) nTweak).nEntriesPerGeneration = 0 := by
    simp [new, reset]
  have hdata : (new 0xFFFFFFFF (nHashFuncs + 1) (fun m => c * m) nTweak).data = [] := by
    simp [new, reset]
  exact ⟨hE, hdata, insert_eq_none_of_data_nil MurmurHash3 hdata (by simp [new, reset]) vKey⟩

/-- The key `r` back in the reversed list is one of the last `l.length - m`. -/
theorem exists_getElem?_reverse_of_mem_drop {α : Type*} {l : List α} {m : ℕ} {a : α}
    (h : a ∈ l.drop m) : ∃ r, r < l.length - m ∧ l.reverse[r]? = some a := by
  have hsplit : l.reverse = (l.drop m).reverse ++ (l.take m).reverse := by
    rw [← List.reverse_append, List.take_append_drop]
  obtain ⟨r, hr, hget⟩ := List.getElem_of_mem (List.mem_reverse.mpr h)
  refine ⟨r, by simpa using hr, ?_⟩
  rw [hsplit, List.getElem?_append_left hr, List.getElem?_eq_getElem hr, hget]

/-- No false negatives: for a filter built for `nElements` keys whose counts do not wrap, after
any run of insertions and resets, a reset and any keys, every insertion and every lookup stays in
bounds, and each of the last `nElements` keys is found, for every hash function. The construction
itself is such a reset (`reset_new`). The filter's bit count is read off `nMaxElements`, the
`uint32_t` the constructor stores `nEntriesPerGeneration * 3` into; that `int` product is the
exact one up to `1431655764` elements (`nMaxElements_exact`) and undefined above. -/
theorem rolling_bloom_no_false_negatives (nElements : UInt32) (nHashFuncs : ℕ)
    (nFilterBitsOf : UInt32 → UInt32) (nTweak : UInt32) (hElements : 1 ≤ nElements.toNat)
    (hWrap : nElements.toNat + 1 < 2 ^ 32)
    (hBits : 1 ≤ (nFilterBitsOf ((nElements + 1) / 2 * 3)).toNat)
    (hBitsWrap : (nFilterBitsOf ((nElements + 1) / 2 * 3)).toNat + 63 < 2 ^ 32)
    {f : CRollingBloomFilter}
    (hf : Reachable MurmurHash3 (new nElements nHashFuncs nFilterBitsOf nTweak) f)
    (t : UInt32) (keys : List (List UInt8)) :
    ∃ f', insertKeys MurmurHash3 (reset f t) keys = some f' ∧
      (∀ k, (contains MurmurHash3 f' k).isSome) ∧
      ∀ k ∈ keys.drop (keys.length - nElements.toNat), contains MurmurHash3 f' k = some true := by
  obtain ⟨hS0, hE0⟩ := new_sized nHashFuncs nTweak hElements hWrap hBits hBitsWrap
  obtain ⟨hS, hEf⟩ := Reachable.sized MurmurHash3 hS0 hf
  obtain ⟨f', hrun, hS', hE', hW⟩ :=
    insertKeys_recent MurmurHash3 keys (reset f t) [] (reset_sized hS t) (reset_window MurmurHash3 f t)
  refine ⟨f', hrun, fun k => by rw [contains_eq MurmurHash3 f' k hS'.fits]; rfl, fun k hk => ?_⟩
  obtain ⟨r, hr, hget⟩ := exists_getElem?_reverse_of_mem_drop hk
  have hEr : (reset f t).nEntriesPerGeneration = f.nEntriesPerGeneration := rfl
  exact contains_of_window MurmurHash3 hS' hW (by simpa using hget) (by omega)

theorem rolling_bloom_no_false_negatives_three :
    1 ≤ (3 : UInt32).toNat ∧ (3 : UInt32).toNat + 1 < 2 ^ 32 ∧
      1 ≤ (5 * ((3 + 1) / 2 * 3) : UInt32).toNat ∧
      (5 * ((3 + 1) / 2 * 3) : UInt32).toNat + 63 < 2 ^ 32 ∧
      ∃ f', insertKeys (fun seed _ => seed) (reset (new 3 2 (fun m => 5 * m) 0) 0)
          [[1], [2], [3]] = some f' ∧
        (∀ k, (contains (fun seed _ => seed) f' k).isSome) ∧
        ∀ k ∈ [[1], [2], [3]].drop (3 - (3 : UInt32).toNat),
          contains (fun seed _ => seed) f' k = some true :=
  ⟨by decide, by decide, by decide, by decide,
    rolling_bloom_no_false_negatives (fun seed _ => seed) 3 2 (fun m => 5 * m) 0 (by decide)
      (by decide) (by decide) (by decide) Reachable.start 0 [[1], [2], [3]]⟩

/-- The failure of `rolling_bloom_no_false_negatives` without its wrap bound, at one filter. -/
theorem rolling_bloom_empty_at_uint_max :
    (new 0xFFFFFFFF 3 (fun m => 5 * m) 0).nEntriesPerGeneration = 0 ∧
      (new 0xFFFFFFFF 3 (fun m => 5 * m) 0).data = [] ∧
      insert (fun seed _ => seed) (new 0xFFFFFFFF 3 (fun m => 5 * m) 0) [] = none :=
  new_uint_max_empty (fun seed _ => seed) 2 5 0 []

end CRollingBloomFilter

end HydraNode
