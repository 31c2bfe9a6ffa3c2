import HydraNode.Serialize
import HydraNode.Lib.Codec

/-!
# Transactions on the wire

`SerializeTransaction` (`primitives/transaction.h`) writes the version, the inputs, the outputs
and the lock time, each vector after its CompactSize count. When witnesses are allowed and some
input has a nonempty witness stack it writes the extended format instead: an empty input vector
as a marker, a flags byte `1`, the inputs and outputs, and then the witness stack of each input.
`UnserializeTransaction` reads the inputs first; an empty vector there is taken for the marker
when witnesses are allowed, and the flags byte follows. An empty flags byte then means a
transaction with no inputs and no outputs.

The reader accepts exactly what the writer writes (`UnserializeTransaction_eq_ok_iff`,
`UnserializeTransaction_eq_ok_iff_noWitness`): it reads every transaction back whose fields fit
their C++ types and whose vectors have at most `MAX_SIZE` elements, except a transaction with no
inputs and some outputs when witnesses are allowed, whose empty input vector is taken for the
marker; and a byte string it accepts is the serialization of what it read. Without witnesses the
witness stacks are neither written nor read. A vector longer than `MAX_SIZE` is written but not
read back (`UnserializeTransaction_oversized_script`).

A stream is the list of its bytes and a reader returns what it read and the rest, or the text of
the exception it throws, as in `Serialize`. A `uint256` is written as its 32 bytes in memory,
least significant first. The reads of a vector in blocks of at most 5 MB behave as one read of
the whole vector and are modelled so.

## Main definitions

* `CTxIn`, `CMutableTransaction` — with every field that is serialized, and the witness
* `SerializeTransaction`, `UnserializeTransaction`

## Main results

* `UnserializeTransaction_eq_ok_iff`, `UnserializeTransaction_eq_ok_iff_noWitness` — what the
  reader accepts, with witnesses allowed and without
-/

namespace HydraNode

namespace TxWire

open Codec

/-! ## The source -/

/-- `CTxIn`, with its sequence number and its witness stack `scriptWitness.stack`. -/
structure CTxIn where
  prevout : COutPoint
  scriptSig : CScript
  nSequence : ℕ
  scriptWitness : List (List UInt8)
  deriving DecidableEq, Repr

/-- `CMutableTransaction`. -/
structure CMutableTransaction where
  nVersion : ℤ
  vin : List CTxIn
  vout : List CTxOut
  nLockTime : ℕ
  deriving DecidableEq, Repr

/-- The loop of `CTransaction::HasWitness`: some input's witness stack is not empty. -/
def hasWitness (vin : List CTxIn) : Bool := vin.any fun i => !i.scriptWitness.isEmpty

/-- `CMutableTransaction::HasWitness`. -/
def CMutableTransaction.HasWitness (tx : CMutableTransaction) : Bool := hasWitness tx.vin

/-- `SERIALIZE_TRANSACTION_NO_WITNESS`, the bit of the stream version that leaves out
witnesses. -/
def SERIALIZE_TRANSACTION_NO_WITNESS : ℕ := 0x40000000

/-- `!(s.GetVersion() & SERIALIZE_TRANSACTION_NO_WITNESS)`. -/
def allowWitness (version : ℕ) : Bool := version &&& SERIALIZE_TRANSACTION_NO_WITNESS = 0

/-- `CDataStream::read` of `n` bytes. -/
def readBytes (n : ℕ) (s : List UInt8) : Except String (List UInt8 × List UInt8) :=
  if s.length < n then .error "CDataStream::read(): end of data" else .ok (s.take n, s.drop n)

/-- `Serialize` of an `int32_t` or an `int64_t`: its bits, as the unsigned number of the same
width. -/
def serSigned (n : ℕ) (x : ℤ) : List UInt8 := writeLE n (x % 2 ^ (8 * n)).toNat

/-- The `int32_t` that `Unserialize` makes of the four bytes it reads. -/
def int32OfBits (x : ℕ) : ℤ := if x < 2 ^ 31 then x else x - 2 ^ 32

/-- `Serialize` of a `std::vector<unsigned char>` or a `prevector<N, unsigned char>`: the
length, then the bytes. -/
def serBytes (b : List UInt8) : List UInt8 := WriteCompactSize b.length ++ b

/-- `Unserialize` of a byte vector. -/
def unserBytes (s : List UInt8) : Except String (List UInt8 × List UInt8) := do
  let (nSize, s) ← ReadCompactSize s
  readBytes nSize s

/-- `Serialize` of a vector of objects: the count, then each one. -/
def serVector {α : Type} (ser : α → List UInt8) (v : List α) : List UInt8 :=
  WriteCompactSize v.length ++ v.flatMap ser

/-- `Unserialize` of a vector of objects. -/
def unserVector {α : Type} (unser : List UInt8 → Except String (α × List UInt8)) :
    List UInt8 → Except String (List α × List UInt8) :=
  readCounted ReadCompactSize unser

/-- `COutPoint::SerializationOp`, writing: the hash, then the index. -/
def serOutPoint (o : COutPoint) : List UInt8 := writeLE 32 o.hash.val ++ ser_writedata32 o.n

/-- `COutPoint::SerializationOp`, reading. -/
def unserOutPoint (s : List UInt8) : Except String (COutPoint × List UInt8) := do
  let (hash, s) ← readData 32 s
  let (n, s) ← ser_readdata32 s
  pure (⟨Fin.ofNat _ hash, n⟩, s)

/-- `CTxIn::SerializationOp`, writing: the witness is not part of it. -/
def serTxIn (i : CTxIn) : List UInt8 :=
  serOutPoint i.prevout ++ serBytes i.scriptSig ++ ser_writedata32 i.nSequence

/-- `CTxIn::SerializationOp`, reading into a fresh input, whose witness is empty. -/
def unserTxIn (s : List UInt8) : Except String (CTxIn × List UInt8) := do
  let (prevout, s) ← unserOutPoint s
  let (scriptSig, s) ← unserBytes s
  let (nSequence, s) ← ser_readdata32 s
  pure (⟨prevout, scriptSig, nSequence, []⟩, s)

/-- `CTxOut::SerializationOp`, writing. -/
def serTxOut (o : CTxOut) : List UInt8 := serSigned 8 o.nValue ++ serBytes o.scriptPubKey

/-- `CTxOut::SerializationOp`, reading. -/
def unserTxOut (s : List UInt8) : Except String (CTxOut × List UInt8) := do
  let (nValue, s) ← ser_readdata64 s
  let (scriptPubKey, s) ← unserBytes s
  pure (⟨toInt64 nValue, scriptPubKey⟩, s)

/-- `SerializeTransaction`. -/
def SerializeTransaction (version : ℕ) (tx : CMutableTransaction) : List UInt8 :=
  let flags : ℕ := if allowWitness version && tx.HasWitness then 1 else 0
  serSigned 4 tx.nVersion ++
    (if flags ≠ 0 then serVector serTxIn [] ++ ser_writedata8 flags else []) ++
    serVector serTxIn tx.vin ++ serVector serTxOut tx.vout ++
    (if flags &&& 1 ≠ 0 then tx.vin.flatMap fun i => serVector serBytes i.scriptWitness else []) ++
    ser_writedata32 tx.nLockTime

/-- `s >> tx.vin[i].scriptWitness.stack` for each input in turn. -/
def unserWitnesses : List CTxIn → List UInt8 → Except String (List CTxIn × List UInt8)
  | [], s => .ok ([], s)
  | i :: is, s => do
    let (stack, s) ← unserVector unserBytes s
    let (is, s) ← unserWitnesses is s
    pure ({ i with scriptWitness := stack } :: is, s)

/-- The part of `UnserializeTransaction` after the first vector of inputs: the flags byte if the
vector is empty and witnesses are allowed, then the inputs and outputs; otherwise the
outputs. -/
def unserBody (fAllowWitness : Bool) (vin : List CTxIn) (s : List UInt8) :
    Except String ((ℕ × List CTxIn × List CTxOut) × List UInt8) :=
  if vin.length = 0 ∧ fAllowWitness then do
    let (flags, s) ← ser_readdata8 s
    if flags ≠ 0 then do
      let (vin, s) ← unserVector unserTxIn s
      let (vout, s) ← unserVector unserTxOut s
      pure ((flags, vin, vout), s)
    else pure ((flags, vin, []), s)
  else do
    let (vout, s) ← unserVector unserTxOut s
    pure ((0, vin, vout), s)

/-- The witness part of `UnserializeTransaction`: with the witness flag, the stacks, which must
not all be empty, and the flag cleared. -/
def unserWitnessPart (fAllowWitness : Bool) (flags : ℕ) (vin : List CTxIn) (s : List UInt8) :
    Except String ((ℕ × List CTxIn) × List UInt8) :=
  if flags &&& 1 ≠ 0 ∧ fAllowWitness then do
    let (vin, s) ← unserWitnesses vin s
    if !hasWitness vin then throw "Superfluous witness record"
    pure ((flags ^^^ 1, vin), s)
  else pure ((flags, vin), s)

/-- `UnserializeTransaction`. -/
def UnserializeTransaction (version : ℕ) (s : List UInt8) :
    Except String (CMutableTransaction × List UInt8) := do
  let fAllowWitness := allowWitness version
  let (nVersion, s) ← ser_readdata32 s
  let (vin, s) ← unserVector unserTxIn s
  let ((flags, vin, vout), s) ← unserBody fAllowWitness vin s
  let ((flags, vin), s) ← unserWitnessPart fAllowWitness flags vin s
  if flags ≠ 0 then throw "Unknown transaction optional data"
  let (nLockTime, s) ← ser_readdata32 s
  pure (⟨int32OfBits nVersion, vin, vout, nLockTime⟩, s)

/-! ## The fields -/

/-- The fields of an input fit their C++ types and its script has at most `MAX_SIZE` bytes. -/
def InFits (i : CTxIn) : Prop :=
  i.prevout.n < 2 ^ 32 ∧ i.scriptSig.length ≤ MAX_SIZE ∧ i.nSequence < 2 ^ 32

/-- A witness stack of at most `MAX_SIZE` items of at most `MAX_SIZE` bytes. -/
def WitnessFits (stack : List (List UInt8)) : Prop :=
  stack.length ≤ MAX_SIZE ∧ ∀ b ∈ stack, b.length ≤ MAX_SIZE

/-- The value of an output fits an `int64_t` and its script has at most `MAX_SIZE` bytes. -/
def OutFits (o : CTxOut) : Prop :=
  -2 ^ 63 ≤ o.nValue ∧ o.nValue < 2 ^ 63 ∧ o.scriptPubKey.length ≤ MAX_SIZE

/-- A transaction the wire format can carry: every field fits its C++ type, and every vector
has at most `MAX_SIZE` elements. -/
structure CMutableTransaction.Fits (tx : CMutableTransaction) : Prop where
  nVersion : -2 ^ 31 ≤ tx.nVersion ∧ tx.nVersion < 2 ^ 31
  vin_length : tx.vin.length ≤ MAX_SIZE
  vin : ∀ i ∈ tx.vin, InFits i ∧ WitnessFits i.scriptWitness
  vout_length : tx.vout.length ≤ MAX_SIZE
  vout : ∀ o ∈ tx.vout, OutFits o
  nLockTime : tx.nLockTime < 2 ^ 32

/-- An input without its witness, as `unserTxIn` reads it. -/
def clearWitness (i : CTxIn) : CTxIn := { i with scriptWitness := [] }

/-- The four bytes of an `int32_t` are read back as it. -/
theorem int32OfBits_serSigned {x : ℤ} (hlo : -2 ^ 31 ≤ x) (hhi : x < 2 ^ 31) :
    (x % 2 ^ 32).toNat < 2 ^ 32 ∧ int32OfBits (x % 2 ^ 32).toNat = x := by
  unfold int32OfBits
  split_ifs <;> omega

/-- Four bytes read as an `int32_t` are written back as they were. -/
theorem serSigned_int32OfBits {x : ℕ} (hx : x < 2 ^ 32) :
    -2 ^ 31 ≤ int32OfBits x ∧ int32OfBits x < 2 ^ 31 ∧ (int32OfBits x % 2 ^ 32).toNat = x := by
  unfold int32OfBits
  split_ifs <;> omega

/-- The eight bytes of an `int64_t` are read back as it. -/
theorem toInt64_serSigned {x : ℤ} (hlo : -2 ^ 63 ≤ x) (hhi : x < 2 ^ 63) :
    (x % 2 ^ 64).toNat < 2 ^ 64 ∧ toInt64 (x % 2 ^ 64).toNat = x := by
  unfold toInt64
  dsimp only
  split_ifs <;> omega

/-- Eight bytes read as an `int64_t` are written back as they were. -/
theorem serSigned_toInt64 {x : ℕ} (hx : x < 2 ^ 64) :
    -2 ^ 63 ≤ toInt64 x ∧ toInt64 x < 2 ^ 63 ∧ (toInt64 x % 2 ^ 64).toNat = x := by
  unfold toInt64
  dsimp only
  split_ifs <;> omega

/-! ## The codecs of the parts -/

theorem readBytes_codec (n : ℕ) : IsCodec id (readBytes n) (fun b => b.length = n) := by
  intro s b rest
  unfold readBytes
  constructor
  · intro h
    split_ifs at h with hlen
    cases h
    exact ⟨by simp; omega, (List.take_append_drop n s).symm⟩
  · rintro ⟨rfl, rfl⟩
    simp [List.take_left' rfl, List.drop_left' rfl]

theorem readData_codec (n : ℕ) : IsCodec (writeLE n) (readData n) (· < 2 ^ (8 * n)) := by
  intro s x rest
  rw [show (2 : ℕ) ^ (8 * n) = 256 ^ n by rw [pow_mul]; norm_num]
  constructor
  · exact readData_eq_ok_writeLE
  · rintro ⟨hx, rfl⟩
    rw [readData_writeLE, Nat.mod_eq_of_lt hx]

theorem ser_readdata8_codec : IsCodec ser_writedata8 ser_readdata8 (· < 2 ^ 8) := readData_codec 1

theorem ser_readdata32_codec : IsCodec ser_writedata32 ser_readdata32 (· < 2 ^ 32) :=
  readData_codec 4

theorem ser_readdata64_codec : IsCodec ser_writedata64 ser_readdata64 (· < 2 ^ 64) :=
  readData_codec 8

theorem ReadCompactSize_codec : IsCodec WriteCompactSize ReadCompactSize (· ≤ MAX_SIZE) :=
  fun _ _ _ => ReadCompactSize_eq_ok_iff

theorem unserBytes_codec : IsCodec serBytes unserBytes (fun b => b.length ≤ MAX_SIZE) := by
  intro s b rest
  rw [unserBytes, ReadCompactSize_codec.bind_eq_ok_iff]
  constructor
  · rintro ⟨n, s', hn, rfl, hb⟩
    obtain ⟨rfl, rfl⟩ := (readBytes_codec n).eq_of_read hb
    exact ⟨hn, by rw [serBytes, List.append_assoc]; rfl⟩
  · rintro ⟨hb, rfl⟩
    exact ⟨b.length, b ++ rest, hb, by rw [serBytes, List.append_assoc],
      (readBytes_codec _).read_write rfl rest⟩

theorem unserVector_codec {α : Type} {ser : α → List UInt8}
    {unser : List UInt8 → Except String (α × List UInt8)} {P : α → Prop}
    (h : IsCodec ser unser P) :
    IsCodec (serVector ser) (unserVector unser) (fun l => l.length ≤ MAX_SIZE ∧ ∀ a ∈ l, P a) :=
  ReadCompactSize_codec.readCounted h

theorem unserOutPoint_codec : IsCodec serOutPoint unserOutPoint (fun o => o.n < 2 ^ 32) := by
  intro s o rest
  simp only [unserOutPoint, (readData_codec 32).bind_eq_ok_iff, ser_readdata32_codec.bind_eq_ok_iff,
    pure, Except.pure, Except.ok.injEq, Prod.mk.injEq]
  constructor
  · rintro ⟨hash, s₁, hhash, rfl, n, s₂, hn, rfl, rfl, rfl⟩
    refine ⟨hn, ?_⟩
    rw [serOutPoint, List.append_assoc, Fin.val_ofNat, Nat.mod_eq_of_lt hhash]
  · rintro ⟨hn, rfl⟩
    exact ⟨o.hash.val, ser_writedata32 o.n ++ rest, o.hash.isLt,
      by rw [serOutPoint, List.append_assoc], o.n, rest, hn, rfl, by rw [Fin.ofNat_val_eq_self], rfl⟩

theorem unserTxIn_codec :
    IsCodec serTxIn unserTxIn (fun i => InFits i ∧ i.scriptWitness = []) := by
  intro s i rest
  simp only [unserTxIn, unserOutPoint_codec.bind_eq_ok_iff, unserBytes_codec.bind_eq_ok_iff,
    ser_readdata32_codec.bind_eq_ok_iff, pure, Except.pure, Except.ok.injEq, Prod.mk.injEq]
  constructor
  · rintro ⟨prevout, s₁, hp, rfl, scriptSig, s₂, hsig, rfl, nSequence, s₃, hseq, rfl, rfl, rfl⟩
    exact ⟨⟨⟨hp, hsig, hseq⟩, rfl⟩, by simp only [serTxIn, List.append_assoc]⟩
  · rintro ⟨⟨⟨hp, hsig, hseq⟩, hw⟩, rfl⟩
    exact ⟨i.prevout, _, hp, by simp only [serTxIn, List.append_assoc], i.scriptSig, _, hsig, rfl,
      i.nSequence, rest, hseq, rfl, by rw [← hw], rfl⟩

theorem unserTxOut_codec : IsCodec serTxOut unserTxOut OutFits := by
  intro s o rest
  simp only [unserTxOut, ser_readdata64_codec.bind_eq_ok_iff, unserBytes_codec.bind_eq_ok_iff,
    pure, Except.pure, Except.ok.injEq, Prod.mk.injEq, OutFits]
  constructor
  · rintro ⟨nValue, s₁, hv, rfl, script, s₂, hscript, rfl, rfl, rfl⟩
    obtain ⟨hlo, hhi, hbits⟩ := serSigned_toInt64 hv
    rw [serTxOut, serSigned, List.append_assoc]
    dsimp only
    rw [hbits]
    exact ⟨⟨hlo, hhi, hscript⟩, rfl⟩
  · rintro ⟨⟨hlo, hhi, hscript⟩, rfl⟩
    obtain ⟨hlt, hval⟩ := toInt64_serSigned hlo hhi
    exact ⟨(o.nValue % 2 ^ 64).toNat, _, hlt, by rw [serTxOut, serSigned, List.append_assoc]; rfl,
      o.scriptPubKey, rest, hscript, rfl, by rw [hval], rfl⟩

/-! ## The phases of the reader -/

theorem serVector_nil {α : Type} (ser : α → List UInt8) : serVector ser [] = ser_writedata8 0 := rfl

/-- `serTxIn` does not write the witness. -/
theorem serVector_map_clearWitness (vin : List CTxIn) :
    serVector serTxIn (vin.map clearWitness) = serVector serTxIn vin := by
  simp only [serVector, List.length_map, List.flatMap_map]
  rfl

theorem map_clearWitness_of_hasWitness {vin : List CTxIn} (h : hasWitness vin = false) :
    vin.map clearWitness = vin := by
  conv_rhs => rw [← List.map_id vin]
  refine List.map_congr_left fun i hi => ?_
  have hi' : i.scriptWitness = [] := by simpa using List.any_eq_false.mp h i hi
  obtain ⟨prevout, scriptSig, nSequence, w⟩ := i
  subst hi'
  rfl

/-- The witness stacks are read into the inputs in turn: the inputs come back with the stacks
that were written, and nothing else of them changes. -/
theorem unserWitnesses_eq_ok_iff {vin vin' : List CTxIn} {s rest : List UInt8} :
    unserWitnesses vin s = .ok (vin', rest) ↔
      vin'.map clearWitness = vin.map clearWitness ∧ (∀ i ∈ vin', WitnessFits i.scriptWitness) ∧
        s = vin'.flatMap (fun i => serVector serBytes i.scriptWitness) ++ rest := by
  induction vin generalizing vin' s with
  | nil =>
    simp only [unserWitnesses, Except.ok.injEq, Prod.mk.injEq, List.map_nil, List.map_eq_nil_iff]
    constructor
    · rintro ⟨rfl, rfl⟩
      simp
    · rintro ⟨rfl, -, rfl⟩
      simp
  | cons i is ih =>
    simp only [unserWitnesses, (unserVector_codec unserBytes_codec).bind_eq_ok_iff]
    constructor
    · rintro ⟨stack, s₁, hstack, rfl, h⟩
      obtain ⟨⟨is', s₂⟩, h₂, h⟩ := except_bind_eq_ok_iff.mp h
      cases h
      obtain ⟨hmap, hfit, rfl⟩ := ih.mp h₂
      refine ⟨by simp only [List.map_cons, hmap]; rfl, ?_, by simp⟩
      intro j hj
      rcases List.mem_cons.mp hj with rfl | hj
      · exact hstack
      · exact hfit j hj
    · rintro ⟨hmap, hfit, rfl⟩
      obtain ⟨j, js, rfl⟩ : ∃ j js, vin' = j :: js := by
        rcases vin' with _ | ⟨j, js⟩
        · cases hmap
        · exact ⟨j, js, rfl⟩
      simp only [List.map_cons, List.cons.injEq] at hmap
      refine ⟨j.scriptWitness, js.flatMap (fun i => serVector serBytes i.scriptWitness) ++ rest,
        hfit j (List.mem_cons_self ..), by simp, ?_⟩
      rw [(ih.mpr ⟨hmap.2, fun k hk => hfit k (List.mem_cons_of_mem j hk), rfl⟩)]
      have hj : { i with scriptWitness := j.scriptWitness } = j := by
        obtain ⟨hp, hsig, hseq⟩ : j.prevout = i.prevout ∧ j.scriptSig = i.scriptSig ∧
            j.nSequence = i.nSequence := by simpa [clearWitness] using hmap.1
        cases i
        cases j
        simp_all
      simp only [except_ok_bind, pure, Except.pure, hj]

/-- Inputs as `unserTxIn` reads them: fitting, with empty witnesses, at most `MAX_SIZE`. -/
def VinFits (vin : List CTxIn) : Prop :=
  vin.length ≤ MAX_SIZE ∧ ∀ i ∈ vin, InFits i ∧ i.scriptWitness = []

/-- Outputs as `unserTxOut` reads them. -/
def VoutFits (vout : List CTxOut) : Prop := vout.length ≤ MAX_SIZE ∧ ∀ o ∈ vout, OutFits o

theorem unserVin_codec : IsCodec (serVector serTxIn) (unserVector unserTxIn) VinFits :=
  unserVector_codec unserTxIn_codec

theorem unserVout_codec : IsCodec (serVector serTxOut) (unserVector unserTxOut) VoutFits :=
  unserVector_codec unserTxOut_codec

/-- After a nonempty vector of inputs, or without witnesses, the outputs follow. -/
theorem unserBody_eq_ok_iff_of_not {f : Bool} {vin vin' : List CTxIn} {vout : List CTxOut}
    {flags : ℕ} {s rest : List UInt8} (h : ¬(vin.length = 0 ∧ f = true)) :
    unserBody f vin s = .ok ((flags, vin', vout), rest) ↔
      flags = 0 ∧ vin' = vin ∧ VoutFits vout ∧ s = serVector serTxOut vout ++ rest := by
  rw [unserBody, if_neg h, unserVout_codec.bind_eq_ok_iff]
  simp only [pure, Except.pure, Except.ok.injEq, Prod.mk.injEq]
  constructor
  · rintro ⟨vout, s', hvout, rfl, ⟨rfl, rfl, rfl⟩, rfl⟩
    exact ⟨rfl, rfl, hvout, rfl⟩
  · rintro ⟨rfl, rfl, hvout, rfl⟩
    exact ⟨vout, rest, hvout, rfl, ⟨rfl, rfl, rfl⟩, rfl⟩

/-- After an empty vector of inputs, with witnesses: the flags byte, and unless it is zero the
inputs and the outputs. -/
theorem unserBody_nil_eq_ok_iff {vin' : List CTxIn} {vout : List CTxOut} {flags : ℕ}
    {s rest : List UInt8} :
    unserBody true [] s = .ok ((flags, vin', vout), rest) ↔
      (flags = 0 ∧ vin' = [] ∧ vout = [] ∧ s = ser_writedata8 0 ++ rest) ∨
      (flags ≠ 0 ∧ flags < 2 ^ 8 ∧ VinFits vin' ∧ VoutFits vout ∧
        s = ser_writedata8 flags ++ serVector serTxIn vin' ++ serVector serTxOut vout ++ rest) := by
  rw [unserBody, if_pos ⟨rfl, rfl⟩, ser_readdata8_codec.bind_eq_ok_iff]
  constructor
  · rintro ⟨b, s₁, hb, rfl, h⟩
    dsimp only at h
    by_cases hb0 : b ≠ 0
    · rw [if_pos hb0, unserVin_codec.bind_eq_ok_iff] at h
      obtain ⟨vin₁, s₂, hvin, rfl, h⟩ := h
      rw [unserVout_codec.bind_eq_ok_iff] at h
      obtain ⟨vout₁, s₃, hvout, rfl, h⟩ := h
      cases h
      exact Or.inr ⟨hb0, hb, hvin, hvout, by simp only [List.append_assoc]⟩
    · rw [if_neg hb0] at h
      cases h
      exact Or.inl ⟨not_not.mp hb0, rfl, rfl, by rw [not_not.mp hb0]⟩
  · rintro (⟨rfl, rfl, rfl, rfl⟩ | ⟨hf, hlt, hvin, hvout, rfl⟩)
    · exact ⟨0, rest, by norm_num, rfl, rfl⟩
    · refine ⟨flags, serVector serTxIn vin' ++ serVector serTxOut vout ++ rest, hlt,
        by simp only [List.append_assoc], ?_⟩
      dsimp only
      rw [if_pos hf, List.append_assoc, unserVin_codec.read_write hvin, except_ok_bind]
      dsimp only
      rw [unserVout_codec.read_write hvout]
      rfl

/-- The witness part with witnesses allowed: with the flag, stacks not all empty, and the flag
cleared; without it, nothing. -/
theorem unserWitnessPart_eq_ok_iff {flags flags' : ℕ} {vin vin' : List CTxIn}
    {s rest : List UInt8} :
    unserWitnessPart true flags vin s = .ok ((flags', vin'), rest) ↔
      (flags &&& 1 ≠ 0 ∧ flags' = flags ^^^ 1 ∧ vin'.map clearWitness = vin.map clearWitness ∧
        hasWitness vin' = true ∧ (∀ i ∈ vin', WitnessFits i.scriptWitness) ∧
        s = vin'.flatMap (fun i => serVector serBytes i.scriptWitness) ++ rest) ∨
      (flags &&& 1 = 0 ∧ flags' = flags ∧ vin' = vin ∧ s = rest) := by
  unfold unserWitnessPart
  by_cases hf : flags &&& 1 ≠ 0
  · rw [if_pos ⟨hf, rfl⟩, except_bind_eq_ok_iff]
    simp only [hf, ne_eq, not_false_eq_true, true_and, false_and, or_false]
    constructor
    · rintro ⟨⟨vin₁, s₁⟩, hw, h⟩
      obtain ⟨hmap, hfit, rfl⟩ := unserWitnesses_eq_ok_iff.mp hw
      dsimp only at h
      by_cases hwit : hasWitness vin₁ = true
      · rw [if_neg (by simp [hwit])] at h
        cases h
        exact ⟨rfl, hmap, hwit, hfit, rfl⟩
      · rw [if_pos (by simpa using hwit)] at h
        cases h
    · rintro ⟨rfl, hmap, hwit, hfit, rfl⟩
      refine ⟨(vin', rest), unserWitnesses_eq_ok_iff.mpr ⟨hmap, hfit, rfl⟩, ?_⟩
      dsimp only
      rw [if_neg (by simp [hwit])]
      rfl
  · have hf0 : flags &&& 1 = 0 := not_not.mp hf
    rw [if_neg fun h => hf h.1]
    simp only [hf0, ne_eq, not_true_eq_false, false_and, false_or, true_and, pure, Except.pure,
      Except.ok.injEq, Prod.mk.injEq]
    constructor
    · rintro ⟨⟨rfl, rfl⟩, rfl⟩
      exact ⟨rfl, rfl, rfl⟩
    · rintro ⟨rfl, rfl, rfl⟩
      exact ⟨⟨rfl, rfl⟩, rfl⟩

theorem unserWitnessPart_false (flags : ℕ) (vin : List CTxIn) (s : List UInt8) :
    unserWitnessPart false flags vin s = .ok ((flags, vin), s) := by
  rw [unserWitnessPart, if_neg fun h => Bool.false_ne_true h.2]
  rfl

/-- `SerializeTransaction` in the extended format. -/
theorem SerializeTransaction_of_witness {version : ℕ} {tx : CMutableTransaction}
    (hw : allowWitness version = true) (h : tx.HasWitness = true) :
    SerializeTransaction version tx =
      serSigned 4 tx.nVersion ++ (ser_writedata8 0 ++ ser_writedata8 1) ++
        serVector serTxIn tx.vin ++ serVector serTxOut tx.vout ++
        tx.vin.flatMap (fun i => serVector serBytes i.scriptWitness) ++
        ser_writedata32 tx.nLockTime := by
  have h1 : ¬(1 : ℕ) &&& 1 = 0 := by decide
  simp only [SerializeTransaction, hw, h, Bool.and_self, if_true, ne_eq, one_ne_zero,
    not_false_eq_true, h1, serVector_nil]

/-- `SerializeTransaction` in the basic format. -/
theorem SerializeTransaction_of_not_witness {version : ℕ} {tx : CMutableTransaction}
    (h : (allowWitness version && tx.HasWitness) = false) :
    SerializeTransaction version tx =
      serSigned 4 tx.nVersion ++ serVector serTxIn tx.vin ++ serVector serTxOut tx.vout ++
        ser_writedata32 tx.nLockTime := by
  simp only [SerializeTransaction, h, Bool.false_eq_true, if_false, ne_eq, not_true_eq_false,
    Nat.zero_and, List.append_nil]

/-! ## The two formats -/

theorem hasWitness_eq_false_of_vinFits {vin : List CTxIn} (h : VinFits vin) :
    hasWitness vin = false :=
  List.any_eq_false.mpr fun i hi => by simp [(h.2 i hi).2]

/-- A transaction in the basic format: the inputs have no witness. -/
theorem basic_spec (version : ℕ) {nv lock : ℕ} {vin : List CTxIn} {vout : List CTxOut}
    (hnv : nv < 2 ^ 32) (hvin : VinFits vin) (hvout : VoutFits vout) (hlock : lock < 2 ^ 32) :
    CMutableTransaction.Fits ⟨int32OfBits nv, vin, vout, lock⟩ ∧
      (∀ i ∈ vin, i.scriptWitness = []) ∧
      SerializeTransaction version ⟨int32OfBits nv, vin, vout, lock⟩ =
        ser_writedata32 nv ++ serVector serTxIn vin ++ serVector serTxOut vout ++
          ser_writedata32 lock := by
  obtain ⟨hlo, hhi, hbits⟩ := serSigned_int32OfBits hnv
  refine ⟨⟨⟨hlo, hhi⟩, hvin.1, fun i hi => ⟨(hvin.2 i hi).1, ?_⟩, hvout.1, hvout.2, hlock⟩,
    fun i hi => (hvin.2 i hi).2, ?_⟩
  · rw [(hvin.2 i hi).2]
    exact ⟨Nat.zero_le _, fun b hb => absurd hb List.not_mem_nil⟩
  · have hnw : (allowWitness version && CMutableTransaction.HasWitness ⟨int32OfBits nv, vin, vout, lock⟩)
        = false := by
      simp [CMutableTransaction.HasWitness, hasWitness_eq_false_of_vinFits hvin]
    rw [SerializeTransaction_of_not_witness hnw, serSigned]
    dsimp only
    rw [hbits]
    rfl

/-- A transaction in the extended format: the inputs as read, then given their witnesses. -/
theorem extended_spec {version : ℕ} (hw : allowWitness version = true) {nv lock : ℕ}
    {vin₁ vin₂ : List CTxIn} {vout : List CTxOut} (hnv : nv < 2 ^ 32) (hvin₁ : VinFits vin₁)
    (hmap : vin₂.map clearWitness = vin₁.map clearWitness) (hwit : hasWitness vin₂ = true)
    (hfit : ∀ i ∈ vin₂, WitnessFits i.scriptWitness) (hvout : VoutFits vout)
    (hlock : lock < 2 ^ 32) :
    CMutableTransaction.Fits ⟨int32OfBits nv, vin₂, vout, lock⟩ ∧ vin₂ ≠ [] ∧
      SerializeTransaction version ⟨int32OfBits nv, vin₂, vout, lock⟩ =
        ser_writedata32 nv ++ (ser_writedata8 0 ++ ser_writedata8 1) ++ serVector serTxIn vin₁ ++
          serVector serTxOut vout ++
          vin₂.flatMap (fun i => serVector serBytes i.scriptWitness) ++ ser_writedata32 lock := by
  obtain ⟨hlo, hhi, hbits⟩ := serSigned_int32OfBits hnv
  have hlen : vin₂.length = vin₁.length := by
    simpa using congrArg List.length hmap
  -- an input read back has the fields of the one written, which the witness does not change
  have hin : ∀ i ∈ vin₂, InFits i := by
    intro i hi
    obtain ⟨j, hj, hji⟩ := List.mem_map.mp
      (hmap ▸ List.mem_map_of_mem (f := clearWitness) hi)
    have := (hvin₁.2 j hj).1
    rwa [show InFits j ↔ InFits (clearWitness j) from Iff.rfl, hji] at this
  refine ⟨⟨⟨hlo, hhi⟩, hlen ▸ hvin₁.1, fun i hi => ⟨hin i hi, hfit i hi⟩, hvout.1, hvout.2, hlock⟩,
    fun h => by simp [h, hasWitness] at hwit, ?_⟩
  have hser : serVector serTxIn vin₂ = serVector serTxIn vin₁ := by
    rw [← serVector_map_clearWitness vin₂, hmap, serVector_map_clearWitness]
  rw [@SerializeTransaction_of_witness version ⟨int32OfBits nv, vin₂, vout, lock⟩ hw hwit, serSigned,
    hser]
  dsimp only
  rw [hbits]
  rfl

/-- What `UnserializeTransaction` accepts is the serialization of what it read, and a
transaction that fits. With witnesses it has inputs, or no outputs either; without, its inputs
have no witness. -/
theorem UnserializeTransaction_eq_ok {version : ℕ} {s rest : List UInt8}
    {tx : CMutableTransaction} (h : UnserializeTransaction version s = .ok (tx, rest)) :
    tx.Fits ∧ (allowWitness version = true → tx.vin ≠ [] ∨ tx.vout = []) ∧
      (allowWitness version = false → ∀ i ∈ tx.vin, i.scriptWitness = []) ∧
      s = SerializeTransaction version tx ++ rest := by
  unfold UnserializeTransaction at h
  rw [ser_readdata32_codec.bind_eq_ok_iff] at h
  obtain ⟨nv, s₁, hnv, rfl, h⟩ := h
  rw [unserVin_codec.bind_eq_ok_iff] at h
  obtain ⟨vin₀, s₂, hvin₀, rfl, h⟩ := h
  obtain ⟨⟨⟨flags, vin₁, vout⟩, s₃⟩, hbody, h⟩ := except_bind_eq_ok_iff.mp h
  obtain ⟨⟨⟨flags', vin₂⟩, s₄⟩, hwit, h⟩ := except_bind_eq_ok_iff.mp h
  dsimp only at h
  -- flags left over are unknown, and rejected
  have hf' : flags' = 0 := by
    by_contra hne
    rw [if_pos hne] at h
    cases h
  rw [if_neg (not_not.mpr hf'), ser_readdata32_codec.bind_eq_ok_iff] at h
  obtain ⟨lock, s₅, hlock, rfl, h⟩ := h
  cases h
  cases hw : allowWitness version
  · -- without witnesses: the basic format
    rw [hw] at hbody hwit
    obtain ⟨rfl, rfl, hvout, rfl⟩ := (unserBody_eq_ok_iff_of_not (by simp)).mp hbody
    rw [unserWitnessPart_false] at hwit
    cases hwit
    obtain ⟨hfits, hnil, hser⟩ := basic_spec version hnv hvin₀ hvout hlock
    refine ⟨hfits, fun h => absurd h Bool.false_ne_true, fun _ => hnil, ?_⟩
    rw [hser]
    simp only [List.append_assoc]
  · rw [hw] at hbody hwit
    by_cases hv0 : vin₀ = []
    · subst hv0
      rcases unserBody_nil_eq_ok_iff.mp hbody with ⟨rfl, rfl, rfl, rfl⟩ | ⟨hf, hlt, hvin₁, hvout, rfl⟩
      · -- an empty flags byte: no inputs and no outputs
        rcases unserWitnessPart_eq_ok_iff.mp hwit with ⟨h0, -⟩ | ⟨-, -, rfl, rfl⟩
        · exact absurd rfl h0
        obtain ⟨hfits, -, hser⟩ := basic_spec version hnv hvin₀ ⟨Nat.zero_le _, fun _ h => absurd h List.not_mem_nil⟩ hlock
        refine ⟨hfits, fun _ => Or.inr rfl, fun h => absurd h (by decide), ?_⟩
        rw [hser]
        simp only [List.append_assoc]
        rfl
      · -- the extended format: the witness flag, and nothing else
        rcases unserWitnessPart_eq_ok_iff.mp hwit with
          ⟨-, hx, hmap, hhas, hfit, rfl⟩ | ⟨h0, rfl, -, -⟩
        · have h1 : flags = 1 := by
            rw [hf'] at hx
            exact Nat.eq_of_xor_eq_zero hx.symm
          subst h1
          obtain ⟨hfits, hne, hser⟩ := extended_spec hw hnv hvin₁ hmap hhas hfit hvout hlock
          refine ⟨hfits, fun _ => Or.inl hne, fun h => absurd h (by decide), ?_⟩
          rw [hser]
          simp only [List.append_assoc]
          rfl
        · exact absurd hf' hf
    · -- inputs: the basic format
      obtain ⟨rfl, rfl, hvout, rfl⟩ :=
        (unserBody_eq_ok_iff_of_not (by simpa [List.length_eq_zero_iff] using hv0)).mp hbody
      rcases unserWitnessPart_eq_ok_iff.mp hwit with ⟨h0, -⟩ | ⟨-, -, rfl, rfl⟩
      · exact absurd rfl h0
      obtain ⟨hfits, -, hser⟩ := basic_spec version hnv hvin₀ hvout hlock
      refine ⟨hfits, fun _ => Or.inl hv0, fun h => absurd h (by decide), ?_⟩
      rw [hser]
      simp only [List.append_assoc]

/-- The reader on a transaction in the basic format. -/
theorem UnserializeTransaction_basic {version nv lock : ℕ} {vin : List CTxIn}
    {vout : List CTxOut} (hnv : nv < 2 ^ 32) (hvin : VinFits vin) (hvout : VoutFits vout)
    (hlock : lock < 2 ^ 32) (hshape : allowWitness version = true → vin ≠ [] ∨ vout = [])
    (rest : List UInt8) :
    UnserializeTransaction version (ser_writedata32 nv ++ serVector serTxIn vin ++
        serVector serTxOut vout ++ ser_writedata32 lock ++ rest) =
      .ok (⟨int32OfBits nv, vin, vout, lock⟩, rest) := by
  -- the flags are zero: no flags byte, or an empty one when there are no inputs and outputs
  have hbody : unserBody (allowWitness version) vin
      (serVector serTxOut vout ++ (ser_writedata32 lock ++ rest)) =
        .ok ((0, vin, vout), ser_writedata32 lock ++ rest) := by
    by_cases h : vin.length = 0 ∧ allowWitness version = true
    · obtain ⟨hlen, hw⟩ := h
      obtain rfl := List.length_eq_zero_iff.mp hlen
      obtain rfl := (hshape hw).resolve_left fun h => h rfl
      rw [hw]
      exact unserBody_nil_eq_ok_iff.mpr (Or.inl ⟨rfl, rfl, rfl, rfl⟩)
    · exact (unserBody_eq_ok_iff_of_not h).mpr ⟨rfl, rfl, hvout, rfl⟩
  have hwit : unserWitnessPart (allowWitness version) 0 vin (ser_writedata32 lock ++ rest) =
      .ok ((0, vin), ser_writedata32 lock ++ rest) := by
    cases allowWitness version
    · exact unserWitnessPart_false 0 vin _
    · exact unserWitnessPart_eq_ok_iff.mpr (Or.inr ⟨rfl, rfl, rfl, rfl⟩)
  unfold UnserializeTransaction
  simp only [List.append_assoc]
  rw [ser_readdata32_codec.read_write hnv, except_ok_bind]
  dsimp only
  rw [unserVin_codec.read_write hvin, except_ok_bind]
  dsimp only
  rw [hbody, except_ok_bind]
  dsimp only
  rw [hwit, except_ok_bind]
  dsimp only
  rw [if_neg (not_not.mpr rfl), ser_readdata32_codec.read_write hlock]
  rfl

/-- The reader on a transaction in the extended format. -/
theorem UnserializeTransaction_extended {version nv lock : ℕ} (hw : allowWitness version = true)
    {vin : List CTxIn} {vout : List CTxOut} (hnv : nv < 2 ^ 32)
    (hvin : VinFits (vin.map clearWitness)) (hhas : hasWitness vin = true)
    (hfit : ∀ i ∈ vin, WitnessFits i.scriptWitness) (hvout : VoutFits vout)
    (hlock : lock < 2 ^ 32) (rest : List UInt8) :
    UnserializeTransaction version (ser_writedata32 nv ++ (ser_writedata8 0 ++ ser_writedata8 1) ++
        serVector serTxIn (vin.map clearWitness) ++ serVector serTxOut vout ++
        vin.flatMap (fun i => serVector serBytes i.scriptWitness) ++ ser_writedata32 lock ++ rest) =
      .ok (⟨int32OfBits nv, vin, vout, lock⟩, rest) := by
  have hbody : unserBody true [] (ser_writedata8 1 ++ (serVector serTxIn (vin.map clearWitness) ++
      (serVector serTxOut vout ++ (vin.flatMap (fun i => serVector serBytes i.scriptWitness) ++
        (ser_writedata32 lock ++ rest))))) =
      .ok ((1, vin.map clearWitness, vout), vin.flatMap (fun i => serVector serBytes i.scriptWitness) ++
        (ser_writedata32 lock ++ rest)) :=
    unserBody_nil_eq_ok_iff.mpr (Or.inr ⟨one_ne_zero, by norm_num, hvin, hvout,
      by simp only [List.append_assoc]⟩)
  have hwit : unserWitnessPart true 1 (vin.map clearWitness)
      (vin.flatMap (fun i => serVector serBytes i.scriptWitness) ++ (ser_writedata32 lock ++ rest)) =
      .ok ((0, vin), ser_writedata32 lock ++ rest) :=
    unserWitnessPart_eq_ok_iff.mpr (Or.inl ⟨by decide, by decide,
      by rw [List.map_map]; rfl, hhas, hfit, rfl⟩)
  unfold UnserializeTransaction
  simp only [List.append_assoc]
  rw [ser_readdata32_codec.read_write hnv, except_ok_bind]
  dsimp only
  rw [← serVector_nil serTxIn, unserVin_codec.read_write ⟨Nat.zero_le _, fun _ h => absurd h List.not_mem_nil⟩,
    except_ok_bind]
  dsimp only
  rw [hw, hbody, except_ok_bind]
  dsimp only
  rw [hwit, except_ok_bind]
  dsimp only
  rw [if_neg (not_not.mpr rfl), ser_readdata32_codec.read_write hlock]
  rfl

/-- The reader reads back every transaction that fits, whatever follows it: with witnesses
allowed one that has inputs or no outputs, without witnesses one whose inputs have none. -/
theorem UnserializeTransaction_SerializeTransaction {version : ℕ} {tx : CMutableTransaction}
    (hfits : tx.Fits) (h1 : allowWitness version = true → tx.vin ≠ [] ∨ tx.vout = [])
    (h0 : allowWitness version = false → ∀ i ∈ tx.vin, i.scriptWitness = [])
    (rest : List UInt8) :
    UnserializeTransaction version (SerializeTransaction version tx ++ rest) = .ok (tx, rest) := by
  obtain ⟨nVersion, vin, vout, lock⟩ := tx
  obtain ⟨hnv, hvin_len, hvin, hvout_len, hvout, hlock⟩ := hfits
  dsimp only at *
  obtain ⟨nv, hlt, rfl⟩ : ∃ nv, nv < 2 ^ 32 ∧ int32OfBits nv = nVersion :=
    ⟨_, int32OfBits_serSigned hnv.1 hnv.2⟩
  have hin : ∀ i ∈ vin, InFits i := fun i hi => (hvin i hi).1
  cases hwb : (allowWitness version && hasWitness vin)
  · -- the basic format: no input has a witness
    have hnil : ∀ i ∈ vin, i.scriptWitness = [] := by
      cases hw : allowWitness version
      · exact h0 hw
      · rw [hw, Bool.true_and] at hwb
        intro i hi
        simpa using List.any_eq_false.mp hwb i hi
    have hvin' : VinFits vin := ⟨hvin_len, fun i hi => ⟨hin i hi, hnil i hi⟩⟩
    rw [(basic_spec version hlt hvin' ⟨hvout_len, hvout⟩ hlock).2.2]
    exact UnserializeTransaction_basic hlt hvin' ⟨hvout_len, hvout⟩ hlock h1 rest
  · -- the extended format
    obtain ⟨hw, hhas⟩ := Bool.and_eq_true_iff.mp hwb
    have hvin' : VinFits (vin.map clearWitness) := by
      refine ⟨by rw [List.length_map]; exact hvin_len, fun i hi => ?_⟩
      obtain ⟨j, hj, rfl⟩ := List.mem_map.mp hi
      exact ⟨hin j hj, rfl⟩
    rw [(extended_spec hw hlt hvin' (by rw [List.map_map]; rfl) hhas (fun i hi => (hvin i hi).2)
      ⟨hvout_len, hvout⟩ hlock).2.2]
    exact UnserializeTransaction_extended hw hlt hvin' hhas (fun i hi => (hvin i hi).2)
      ⟨hvout_len, hvout⟩ hlock rest

/-! ## What the reader accepts -/

/-- With witnesses allowed, `UnserializeTransaction` accepts exactly the serializations of the
transactions that fit and have inputs or no outputs, each followed by anything. -/
theorem UnserializeTransaction_eq_ok_iff {version : ℕ} (hw : allowWitness version = true)
    {s rest : List UInt8} {tx : CMutableTransaction} :
    UnserializeTransaction version s = .ok (tx, rest) ↔
      tx.Fits ∧ (tx.vin ≠ [] ∨ tx.vout = []) ∧ s = SerializeTransaction version tx ++ rest := by
  constructor
  · intro h
    obtain ⟨hfits, h1, -, hs⟩ := UnserializeTransaction_eq_ok h
    exact ⟨hfits, h1 hw, hs⟩
  · rintro ⟨hfits, hshape, rfl⟩
    exact UnserializeTransaction_SerializeTransaction hfits (fun _ => hshape)
      (fun h => absurd (hw.symm.trans h) (by decide)) rest

/-- An input with a witness is read back with it. -/
example : UnserializeTransaction 0 (SerializeTransaction 0
    ⟨1, [⟨⟨0, 0⟩, [81], 0, [[1, 2]]⟩], [⟨5, [81]⟩], 0⟩) =
      .ok (⟨1, [⟨⟨0, 0⟩, [81], 0, [[1, 2]]⟩], [⟨5, [81]⟩], 0⟩, []) := by
  decide +kernel

/-- With no inputs the empty vector is taken for the marker, and the count of outputs for the
flags byte: the reader runs out of data. -/
example : UnserializeTransaction 0 (SerializeTransaction 0 ⟨1, [], [⟨5, [81]⟩], 0⟩) =
    .error "CDataStream::read(): end of data" := by
  decide +kernel

/-- Without witnesses, `UnserializeTransaction` accepts exactly the serializations of the
transactions that fit and whose inputs have no witness. -/
theorem UnserializeTransaction_eq_ok_iff_noWitness {version : ℕ} (hw : allowWitness version = false)
    {s rest : List UInt8} {tx : CMutableTransaction} :
    UnserializeTransaction version s = .ok (tx, rest) ↔
      tx.Fits ∧ (∀ i ∈ tx.vin, i.scriptWitness = []) ∧ s = SerializeTransaction version tx ++ rest := by
  constructor
  · intro h
    obtain ⟨hfits, -, h0, hs⟩ := UnserializeTransaction_eq_ok h
    exact ⟨hfits, h0 hw, hs⟩
  · rintro ⟨hfits, hnil, rfl⟩
    exact UnserializeTransaction_SerializeTransaction hfits
      (fun h => absurd (hw.symm.trans h) (by decide)) (fun _ => hnil) rest

/-- The transaction without its witnesses. -/
def CMutableTransaction.stripWitness (tx : CMutableTransaction) : CMutableTransaction :=
  { tx with vin := tx.vin.map clearWitness }

theorem CMutableTransaction.Fits.stripWitness {tx : CMutableTransaction} (h : tx.Fits) :
    tx.stripWitness.Fits where
  nVersion := h.nVersion
  vin_length := by simpa [CMutableTransaction.stripWitness] using h.vin_length
  vin i hi := by
    obtain ⟨j, hj, rfl⟩ := List.mem_map.mp hi
    exact ⟨(h.vin j hj).1, Nat.zero_le _, fun _ hb => absurd hb List.not_mem_nil⟩
  vout_length := h.vout_length
  vout := h.vout
  nLockTime := h.nLockTime

/-- Without witnesses the serialization is that of the transaction without its witnesses. -/
theorem SerializeTransaction_stripWitness {version : ℕ} (hw : allowWitness version = false)
    (tx : CMutableTransaction) :
    SerializeTransaction version tx.stripWitness = SerializeTransaction version tx := by
  rw [SerializeTransaction_of_not_witness (by rw [hw, Bool.false_and]),
    SerializeTransaction_of_not_witness (by rw [hw, Bool.false_and])]
  simp only [CMutableTransaction.stripWitness, serVector_map_clearWitness]

example : UnserializeTransaction SERIALIZE_TRANSACTION_NO_WITNESS
    (SerializeTransaction SERIALIZE_TRANSACTION_NO_WITNESS
      ⟨1, [⟨⟨0, 0⟩, [81], 0, [[1, 2]]⟩], [⟨5, [81]⟩], 0⟩) =
      .ok (⟨1, [⟨⟨0, 0⟩, [81], 0, []⟩], [⟨5, [81]⟩], 0⟩, []) := by
  decide +kernel

/-- With witnesses allowed a transaction with inputs is read back; without, the transaction
without its witnesses; and with or without, what the reader accepts is the serialization of
what it read. Every field fits its C++ type and every vector has at most `MAX_SIZE` elements. -/
theorem transaction_wire_roundtrip :
    (∀ (version : ℕ) (tx : CMutableTransaction) (rest : List UInt8),
      allowWitness version = true → tx.Fits → tx.vin ≠ [] →
      UnserializeTransaction version (SerializeTransaction version tx ++ rest) = .ok (tx, rest)) ∧
    (∀ (version : ℕ) (tx : CMutableTransaction) (rest : List UInt8),
      allowWitness version = false → tx.Fits →
      UnserializeTransaction version (SerializeTransaction version tx ++ rest) =
        .ok (tx.stripWitness, rest)) ∧
    (∀ (version : ℕ) (s rest : List UInt8) (tx : CMutableTransaction),
      UnserializeTransaction version s = .ok (tx, rest) →
      s = SerializeTransaction version tx ++ rest) := by
  refine ⟨fun version tx rest hw hfits hvin =>
      (UnserializeTransaction_eq_ok_iff hw).mpr ⟨hfits, Or.inl hvin, rfl⟩,
    fun version tx rest hw hfits => ?_,
    fun version s rest tx h => (UnserializeTransaction_eq_ok h).2.2.2⟩
  rw [← SerializeTransaction_stripWitness hw tx]
  refine (UnserializeTransaction_eq_ok_iff_noWitness hw).mpr ⟨hfits.stripWitness, ?_, rfl⟩
  intro i hi
  obtain ⟨j, -, rfl⟩ := List.mem_map.mp hi
  rfl

/-- A transaction of one input with a one-item witness stack and one output, written with
witnesses and read back with the bytes after it. -/
theorem transaction_wire_roundtrip_one_input :
    let tx : CMutableTransaction :=
      ⟨2, [⟨⟨7, 1⟩, [0x51], 0xfffffffe, [[1, 2]]⟩], [⟨5000, [0x51]⟩], 0⟩
    UnserializeTransaction 0 (SerializeTransaction 0 tx ++ [9]) = .ok (tx, [9]) := by
  intro tx
  have hfits : tx.Fits := ⟨by norm_num [tx], by simp [tx, MAX_SIZE],
    by simp [tx, InFits, WitnessFits, MAX_SIZE], by simp [tx, MAX_SIZE],
    by simp [tx, OutFits, MAX_SIZE], by norm_num [tx]⟩
  exact transaction_wire_roundtrip.1 0 tx [9] rfl hfits (by simp)

/-! ## Vectors above `MAX_SIZE` -/

/-- A length above `MAX_SIZE` that fits four bytes is written, and the reader stops at it. -/
theorem ReadCompactSize_of_gt {n : ℕ} (h : MAX_SIZE < n) (hn : n ≤ 0xffffffff)
    (rest : List UInt8) :
    ReadCompactSize (WriteCompactSize n ++ rest) = .error "ReadCompactSize(): size too large" := by
  have hbig : ¬n ≤ 0xffff := by simp only [MAX_SIZE] at h; omega
  have htail : readCompactSizeAfterMarker ser_readdata32 0x10000 (ser_writedata32 n ++ rest) =
      .ok (n, rest) :=
    readCompactSizeAfterMarker_eq_ok_iff.mpr ⟨by omega, by omega, rfl⟩
  simp [WriteCompactSize, ReadCompactSize, show ¬n < 253 by omega, hbig, hn, ser_readdata8,
    ser_writedata8, readData_writeLE, htail, h]
  rfl

/-- An input whose script is longer than `MAX_SIZE` stops the reader at the script's length. -/
theorem unserTxIn_of_gt {i : CTxIn} (hn : i.prevout.n < 2 ^ 32) (h : MAX_SIZE < i.scriptSig.length)
    (hlen : i.scriptSig.length ≤ 0xffffffff) (rest : List UInt8) :
    unserTxIn (serTxIn i ++ rest) = .error "ReadCompactSize(): size too large" := by
  have hout := unserOutPoint_codec.read_write hn
    (serBytes i.scriptSig ++ ser_writedata32 i.nSequence ++ rest)
  simp only [unserTxIn, serTxIn, List.append_assoc] at hout ⊢
  rw [hout]
  simp only [unserBytes, serBytes, List.append_assoc, bind, Except.bind, ReadCompactSize_of_gt h hlen]

/-- A vector whose first element stops the reader stops it too. -/
theorem unserVector_of_head_error {α : Type} {ser : α → List UInt8}
    {unser : List UInt8 → Except String (α × List UInt8)} {a : α} {as : List α} {e : String}
    (hcount : as.length + 1 ≤ MAX_SIZE) (ha : ∀ rest, unser (ser a ++ rest) = .error e)
    (rest : List UInt8) :
    unserVector unser (serVector ser (a :: as) ++ rest) = .error e := by
  have hread := ReadCompactSize_codec.read_write hcount (ser a ++ (as.flatMap ser ++ rest))
  simp only [unserVector, readCounted, serVector, List.length_cons, List.flatMap_cons,
    List.append_assoc, hread, bind, Except.bind, Codec.readMany, ha]

/-- A transaction in the basic format whose first input has a script above `MAX_SIZE`, with a
length that fits four bytes, is written and not read back. -/
theorem UnserializeTransaction_of_gt {version : ℕ} {tx : CMutableTransaction} {i : CTxIn}
    {is : List CTxIn} (hvin : tx.vin = i :: is)
    (hbasic : (allowWitness version && tx.HasWitness) = false) (hcount : tx.vin.length ≤ MAX_SIZE)
    (hn : i.prevout.n < 2 ^ 32) (h : MAX_SIZE < i.scriptSig.length)
    (hlen : i.scriptSig.length ≤ 0xffffffff) (rest : List UInt8) :
    UnserializeTransaction version (SerializeTransaction version tx ++ rest) =
      .error "ReadCompactSize(): size too large" := by
  rw [hvin, List.length_cons] at hcount
  have hin : unserVector unserTxIn (serVector serTxIn (i :: is) ++
      (serVector serTxOut tx.vout ++ (ser_writedata32 tx.nLockTime ++ rest))) =
      .error "ReadCompactSize(): size too large" :=
    unserVector_of_head_error hcount (unserTxIn_of_gt hn h hlen) _
  rw [SerializeTransaction_of_not_witness hbasic, hvin]
  simp only [UnserializeTransaction, serSigned, ser_readdata32, List.append_assoc,
    readData_writeLE, hin, bind, Except.bind]

/-- An input whose script holds one byte more than `MAX_SIZE` is written, and not read back. -/
theorem UnserializeTransaction_oversized_script :
    UnserializeTransaction 0 (SerializeTransaction 0
        ⟨1, [⟨⟨0, 0⟩, List.replicate (MAX_SIZE + 1) 0, 0, []⟩], [], 0⟩) =
      .error "ReadCompactSize(): size too large" := by
  -- the script is never evaluated: its length comes from List.length_replicate
  have h := @UnserializeTransaction_of_gt 0 ⟨1, [⟨⟨0, 0⟩, List.replicate (MAX_SIZE + 1) 0, 0, []⟩], [], 0⟩
    ⟨⟨0, 0⟩, List.replicate (MAX_SIZE + 1) 0, 0, []⟩ [] rfl rfl (by decide : 1 ≤ MAX_SIZE)
    (by decide) (by rw [List.length_replicate]; exact Nat.lt_succ_self _)
    (by rw [List.length_replicate]; decide) []
  rwa [List.append_nil] at h

end TxWire

end HydraNode
