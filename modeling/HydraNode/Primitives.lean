import Mathlib

/-!
# Primitive types of the node

The fixed-width values, scripts and transactions that the consensus code passes around,
at the level of detail the modelled functions read them.

## Fixed-width values

`dev::u256` is a 256-bit unsigned integer without overflow checks, so its arithmetic wraps
modulo `2 ^ 256`; `Fin (2 ^ 256)` has exactly that arithmetic and order. Addresses and
hashes (`dev::h160`, `dev::h256`) are compared byte by byte from the most significant end,
which is the numeric order of the big-endian value. Amounts (`CAmount`) are `int64_t`; they
are integers here, and the one conversion into them, `CAmount(u256)`, keeps the low 64 bits
read as a two's complement number.

## Scripts

A `CScript` is its byte string. `CScript::operator<<` appends an opcode as one byte and a
byte vector as a push with the shortest of the four length prefixes.

## Main definitions

* `U256`, `Address`, `H256`, `CAmount`, `amountOfU256`
* `CScript`, `CScript.pushOp`, `CScript.pushData`, `Address.asBytes`
* `COutPoint`, `CTxIn`, `CTxOut`, `CTransaction`, `CTransaction.IsCoinBase`,
  `CTransaction.IsCoinStake`
-/

namespace HydraNode

/-- `dev::u256`: unsigned 256-bit arithmetic, wrapping. -/
abbrev U256 := Fin (2 ^ 256)

instance neZero_two_pow_256 : NeZero (2 ^ 256 : ℕ) := ⟨by positivity⟩

/-- A number reduced into `u256`, as the wrapping arithmetic leaves it. -/
def U256.ofNat (n : ℕ) : U256 := ⟨n % 2 ^ 256, Nat.mod_lt _ (Nat.two_pow_pos 256)⟩

@[simp] theorem U256.val_ofNat (n : ℕ) : (U256.ofNat n).val = n % 2 ^ 256 := rfl

@[simp] theorem U256.ofNat_zero : U256.ofNat 0 = 0 := rfl

/-- Adding a `u256` to a reduced number reduces the sum. -/
theorem U256.ofNat_add_val (n : ℕ) (x : U256) : U256.ofNat (n + x.val) = U256.ofNat n + x := by
  apply Fin.ext
  simp [Fin.val_add, Nat.add_mod]

/-- `dev::Address`, a 160-bit hash, ordered as a big-endian number. -/
abbrev Address := Fin (2 ^ 160)

instance neZero_two_pow_160 : NeZero (2 ^ 160 : ℕ) := ⟨by positivity⟩

instance lawfulBEq_address : LawfulBEq Address := inferInstance

/-- `dev::h256` and `uint256`, a 256-bit hash. -/
abbrev H256 := Fin (2 ^ 256)

instance lawfulBEq_h256 : LawfulBEq H256 := inferInstance

/-- `CAmount`, a signed 64-bit amount of satoshis. -/
abbrev CAmount := ℤ

/-- The largest `int64_t`. -/
def INT64_MAX : ℕ := 2 ^ 63 - 1

/-- `CAmount(x)` for a `u256` `x`: boost's conversion keeps the lowest 64-bit limb and reads
it as a signed number. -/
def amountOfU256 (x : U256) : CAmount :=
  let low := x.val % 2 ^ 64
  if low ≤ INT64_MAX then (low : ℤ) else (low : ℤ) - 2 ^ 64

theorem amountOfU256_of_le {x : U256} (h : x.val ≤ INT64_MAX) : amountOfU256 x = x.val := by
  have hlt : x.val < 2 ^ 64 := by unfold INT64_MAX at h; omega
  have hmod : x.val % 2 ^ 64 = x.val := Nat.mod_eq_of_lt hlt
  simp only [amountOfU256]
  rw [hmod, if_pos h]

/-- The largest `uint64_t`. -/
def UINT64_MAX : ℕ := 2 ^ 64 - 1

/-- An integer stored into an `int64_t`: the low 64 bits, read as a signed number. -/
def toInt64 (x : ℤ) : ℤ :=
  let low := x % 2 ^ 64
  if low < 2 ^ 63 then low else low - 2 ^ 64

/-- A value that fits is stored unchanged. -/
theorem toInt64_of_lt {x : ℤ} (h₀ : 0 ≤ x) (h : x < 2 ^ 63) : toInt64 x = x := by
  have hlt : x < 2 ^ 64 := by omega
  show (if x % 2 ^ 64 < 2 ^ 63 then x % 2 ^ 64 else x % 2 ^ 64 - 2 ^ 64) = x
  rw [Int.emod_eq_of_lt h₀ hlt, if_pos h]

theorem toInt64_of_le {x : ℤ} (h₀ : 0 ≤ x) (h : x ≤ INT64_MAX) : toInt64 x = x :=
  toInt64_of_lt h₀ (by unfold INT64_MAX at h; omega)

/-- The stored value is the representative of `x` modulo `2 ^ 64` between `-2 ^ 63` and
`2 ^ 63`. -/
theorem toInt64_eq_of_emod {x z : ℤ} (h₀ : -2 ^ 63 ≤ z) (h : z < 2 ^ 63)
    (hmod : x % 2 ^ 64 = z % 2 ^ 64) : toInt64 x = z := by
  show (if x % 2 ^ 64 < 2 ^ 63 then x % 2 ^ 64 else x % 2 ^ 64 - 2 ^ 64) = z
  rw [hmod]
  split_ifs <;> omega

/-- `uint64_t(x)` for an `int64_t` `x`, as the usual arithmetic conversions read a signed
value compared with an unsigned one: modulo `2 ^ 64`. -/
def toUInt64 (x : ℤ) : ℕ := (x % 2 ^ 64).toNat

theorem natCast_toUInt64 (x : ℤ) : (toUInt64 x : ℤ) = x % 2 ^ 64 :=
  Int.toNat_of_nonneg (Int.emod_nonneg x (by decide))

/-! ## Scripts -/

/-- `CScript`, as its bytes. -/
abbrev CScript := List UInt8

/-- Opcodes, as the bytes `opcodetype` assigns them. -/
def OP_0 : UInt8 := 0x00
def OP_PUSHDATA1 : UInt8 := 0x4c
def OP_PUSHDATA2 : UInt8 := 0x4d
def OP_PUSHDATA4 : UInt8 := 0x4e
def OP_DUP : UInt8 := 0x76
def OP_EQUALVERIFY : UInt8 := 0x88
def OP_HASH160 : UInt8 := 0xa9
def OP_CHECKSIG : UInt8 := 0xac
def OP_CREATE : UInt8 := 0xc1
def OP_CALL : UInt8 := 0xc2
def OP_SPEND : UInt8 := 0xc3
def OP_COINSTAKE_CALL : UInt8 := 0xc4
def OP_SENDER : UInt8 := 0xc5

/-- The `n` lowest bytes of `x`, least significant first: `WriteLE16` and `WriteLE32`. -/
def writeLE (n x : ℕ) : List UInt8 :=
  (List.range n).map fun i => UInt8.ofNat (x / 256 ^ i)

/-- `CScript::operator<<(opcodetype)`. -/
def CScript.pushOp (s : CScript) (op : UInt8) : CScript := s ++ [op]

/-- `CScript::operator<<(const std::vector<unsigned char>&)`: the shortest length prefix,
then the bytes. -/
def CScript.pushData (s : CScript) (b : List UInt8) : CScript :=
  let lenPrefix :=
    if b.length < OP_PUSHDATA1.toNat then [UInt8.ofNat b.length]
    else if b.length ≤ 0xff then [OP_PUSHDATA1, UInt8.ofNat b.length]
    else if b.length ≤ 0xffff then OP_PUSHDATA2 :: writeLE 2 b.length
    else OP_PUSHDATA4 :: writeLE 4 b.length
  s ++ lenPrefix ++ b

/-- `dev::Address::asBytes`: the twenty bytes of the address, most significant first. -/
def Address.asBytes (a : Address) : List UInt8 :=
  (List.range 20).reverse.map fun i => UInt8.ofNat (a.val / 256 ^ i)

/-- The pay-to-public-key-hash script
`CScript() << OP_DUP << OP_HASH160 << a.asBytes() << OP_EQUALVERIFY << OP_CHECKSIG`. -/
def p2pkhScript (a : Address) : CScript :=
  let s := CScript.pushData (CScript.pushOp (CScript.pushOp [] OP_DUP) OP_HASH160) a.asBytes
  CScript.pushOp (CScript.pushOp s OP_EQUALVERIFY) OP_CHECKSIG

/-- Numbers whose lowest `n` base-`256` digits agree agree modulo `256 ^ n`. -/
theorem mod_pow_eq_of_digits {x y : ℕ} {n : ℕ}
    (h : ∀ i < n, x / 256 ^ i % 256 = y / 256 ^ i % 256) : x % 256 ^ n = y % 256 ^ n := by
  induction n with
  | zero => simp [Nat.mod_one]
  | succ n ih => rw [Nat.mod_pow_succ, Nat.mod_pow_succ, ih fun i hi => h i (by omega), h n (by omega)]

/-- An address is determined by its twenty bytes. -/
theorem Address.asBytes_injective : Function.Injective Address.asBytes := by
  intro a b hab
  have hdig : ∀ i < 20, a.val / 256 ^ i % 256 = b.val / 256 ^ i % 256 := by
    intro i hi
    have hbyte := congrArg UInt8.toNat ((List.map_inj_left.mp hab) i (by simp [hi]))
    simpa using hbyte
  have hlt : ∀ x : Address, x.val < 256 ^ 20 := fun x =>
    lt_of_lt_of_eq x.isLt (by rfl)
  have hmod := mod_pow_eq_of_digits hdig
  rw [Nat.mod_eq_of_lt (hlt a), Nat.mod_eq_of_lt (hlt b)] at hmod
  exact Fin.ext hmod

@[simp] theorem Address.length_asBytes (a : Address) : a.asBytes.length = 20 := by
  simp [Address.asBytes]

/-! ## Transactions -/

/-- `COutPoint`: a transaction hash and an output index. -/
structure COutPoint where
  hash : H256
  n : ℕ
  deriving DecidableEq, Repr

/-- `CTxIn`, with the fields the modelled code reads. -/
structure CTxIn where
  prevout : COutPoint
  scriptSig : CScript
  deriving DecidableEq, Repr

/-- `CTxOut`. -/
structure CTxOut where
  nValue : CAmount
  scriptPubKey : CScript
  deriving DecidableEq, Repr

/-- `CTransaction`, with the fields the modelled code reads; `CTransaction()` is the one
with no inputs and no outputs. -/
structure CTransaction where
  vin : List CTxIn
  vout : List CTxOut
  deriving DecidableEq, Repr

/-- The default transaction `CTransaction()`. -/
def CTransaction.empty : CTransaction := ⟨[], []⟩

/-- `COutPoint::NULL_INDEX`, the largest `uint32_t`. -/
def COutPoint.NULL_INDEX : ℕ := 2 ^ 32 - 1

/-- `COutPoint::IsNull`: the outpoint of a coinbase input. -/
def COutPoint.IsNull (o : COutPoint) : Bool := o.hash = 0 && o.n = COutPoint.NULL_INDEX

/-- `CTxOut::IsEmpty`: no value and no script, the first output of a coinstake. -/
def CTxOut.IsEmpty (o : CTxOut) : Bool := o.nValue = 0 && o.scriptPubKey.isEmpty

/-- `CTxOut()`, whose `nValue` is `-1`: the output of the empty coin that a coin view
returns for an outpoint it does not hold. -/
def CTxOut.null : CTxOut := ⟨-1, []⟩

/-- `CTransaction::IsCoinBase`. -/
def CTransaction.IsCoinBase (tx : CTransaction) : Bool :=
  match tx.vin with
  | [i] => i.prevout.IsNull && 1 ≤ tx.vout.length
  | _ => false

/-- `CTransaction::IsCoinStake`. -/
def CTransaction.IsCoinStake (tx : CTransaction) : Bool :=
  match tx.vin, tx.vout with
  | i :: _, o :: _ :: _ => !i.prevout.IsNull && o.IsEmpty
  | _, _ => false

end HydraNode
