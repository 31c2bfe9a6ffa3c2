import HydraNode.Serialize
import HydraNode.Coins.View
import HydraNode.Lydra.Faults

/-!
# Compressed outputs and coins

The chainstate stores each coin, and the undo files each spent coin, through `CTxOutCompressor`
(`compressor.h`, `compressor.cpp`): the amount as a VarInt of `CompressAmount`, and the script
through `CScriptCompressor`, which writes the four standard forms (pay to a key hash, to a script
hash, to a compressed or an uncompressed public key) as a one-byte code and 20 or 32 bytes, and
any other script as a VarInt of its size plus `nSpecialScripts` and its bytes. A `Coin` adds a
VarInt code holding its height and its coinbase and coinstake bits; the undo format writes a
dummy zero after a nonzero height.

`CompressAmount` strips up to nine trailing decimal zeros and folds the last nonzero digit into a
mixed-radix number. Its arithmetic is on `uint64_t`, modelled with `UInt64`, whose operations wrap
as the source's do; `decompressAmountExact` is the same decoding in unbounded arithmetic, and
`toNat_DecompressAmount` shows that the two agree whenever the exact result fits, so that a
decoding wraps only when its result does not fit.

An uncompressed public key is stored as its `x` coordinate and the parity of `y`, and restored by
secp256k1 point decompression. The two `CPubKey` operations involved are a parameter
(`PubKeyCodec`), and the round trip assumes that decompression inverts compression on fully valid
keys (`PubKeyCodec.DecompressInverts`).

Streams are the lists of their bytes, read as a `CDataStream` reads them: a reader returns what
it read and the rest, or the text of the exception it throws.

## Main definitions

* `CompressAmount`, `DecompressAmount`, `decompressAmountExact`
* `CompressScript`, `DecompressScript`, `CScriptCompressor.Serialize`, `.Unserialize`
* `CTxOutCompressor.Serialize`, `.Unserialize`
* `Coin.Serialize`, `Coin.Unserialize`, `TxInUndoSerializer`, `TxInUndoDeserializer`

## Main results

* `toNat_DecompressAmount` — `DecompressAmount` wraps only where its exact result does not fit
* `DecompressAmount_CompressAmount` — amounts below `2 ^ 60` round-trip, without wrapping
* `CompressScript_spec` — what a compressed script decompresses to
* `CScriptCompressor.Unserialize_Serialize` — scripts up to `MAX_SCRIPT_SIZE` round-trip
* `CTxOutCompressor.Unserialize_Serialize`, `Coin.Unserialize_Serialize` — outputs and coins
  round-trip for amounts in `[0, MAX_MONEY]`
* `CTxOutCompressor_roundtrip`, and `CTxOutCompressor_null_output`: the null output, of value
  `-1`, does not round-trip
-/

namespace HydraNode

/-! ## Amounts -/

/-- The loop of `CompressAmount`: divide out a factor of ten while the last digit is zero, at
most nine times. -/
def stripZeros (n : UInt64) (e : ℕ) : UInt64 × ℕ :=
  if n % 10 = 0 ∧ e < 9 then stripZeros (n / 10) (e + 1) else (n, e)
termination_by 9 - e
decreasing_by omega

/-- `CompressAmount`: `0`, or `1 + 10 * (9 * n + d - 1) + e` for the amount `(10 * n + d) * 10 ^ e`
with a last digit `d ≠ 0` and `e < 9`, or `1 + 10 * (n - 1) + 9` for `n * 10 ^ 9`. -/
def CompressAmount (n : UInt64) : UInt64 :=
  if n = 0 then 0
  else
    match stripZeros n 0 with
    | (n, e) =>
      if e < 9 then
        let d := n % 10
        let n := n / 10
        1 + (n * 9 + d - 1) * 10 + UInt64.ofNat e
      else 1 + (n - 1) * 10 + 9

/-- The loop of `DecompressAmount`: `while (e) { n *= 10; e--; }`. -/
def mulTen : UInt64 → ℕ → UInt64
  | n, 0 => n
  | n, e + 1 => mulTen (n * 10) e

/-- `DecompressAmount`. -/
def DecompressAmount (x : UInt64) : UInt64 :=
  if x = 0 then 0
  else
    let x := x - 1
    let e := (x % 10).toNat
    let x := x / 10
    let n :=
      if e < 9 then
        let d := x % 9 + 1
        let x := x / 9
        x * 10 + d
      else x + 1
    mulTen n e

/-- What `DecompressAmount` computes in unbounded arithmetic. -/
def decompressAmountExact (x : ℕ) : ℕ :=
  if x = 0 then 0
  else
    let e := (x - 1) % 10
    let q := (x - 1) / 10
    (if e < 9 then q / 9 * 10 + (q % 9 + 1) else q + 1) * 10 ^ e

/-! ### The amount code -/

/-- The loop of `CompressAmount` takes out `k` factors of ten, stopping at nine or at a nonzero
last digit. -/
theorem stripZeros_spec (n : UInt64) (e : ℕ) (he : e ≤ 9) :
    ∃ m k, stripZeros n e = (m, e + k) ∧ e + k ≤ 9 ∧ n.toNat = m.toNat * 10 ^ k ∧
      (e + k < 9 → m.toNat % 10 ≠ 0) := by
  induction n, e using stripZeros.induct with
  | case1 n e h ih =>
    obtain ⟨m, k, hs, hk, hm, hd⟩ := ih (by omega)
    have hdiv : n.toNat = (n / 10).toNat * 10 := by
      have h0 := congrArg UInt64.toNat h.1
      rw [UInt64.toNat_mod] at h0
      simp only [UInt64.reduceToNat] at h0
      rw [UInt64.toNat_div]
      simp only [UInt64.reduceToNat]
      omega
    refine ⟨m, k + 1, ?_, by omega, ?_, fun h' => hd (by omega)⟩
    · rw [stripZeros, if_pos h, hs, Nat.add_right_comm]
      rfl
    · rw [hdiv, hm, pow_succ, Nat.mul_assoc]
  | case2 n e h =>
    refine ⟨n, 0, by rw [stripZeros, if_neg h]; rfl, by omega, by simp, fun h' hd => h ⟨?_, by omega⟩⟩
    rw [← UInt64.toNat_inj, UInt64.toNat_mod]
    exact hd

/-- The code of `m * 10 ^ e`, in unbounded arithmetic. -/
theorem decompressAmountExact_code {m e : ℕ} (he : e ≤ 9) (hm : 0 < m) (hd : e < 9 → m % 10 ≠ 0) :
    decompressAmountExact
        (if e < 9 then 1 + (m / 10 * 9 + m % 10 - 1) * 10 + e else 1 + (m - 1) * 10 + 9) =
      m * 10 ^ e := by
  unfold decompressAmountExact
  by_cases h9 : e < 9
  · -- `x - 1 = 10 * (9 * (m / 10) + m % 10 - 1) + e`, whose digits give back `e` and `m`
    have hd' := hd h9
    have he' : (1 + (m / 10 * 9 + m % 10 - 1) * 10 + e - 1) % 10 = e := by omega
    have hq : (1 + (m / 10 * 9 + m % 10 - 1) * 10 + e - 1) / 10 = m / 10 * 9 + m % 10 - 1 := by
      omega
    have hm' : (m / 10 * 9 + m % 10 - 1) / 9 * 10 + ((m / 10 * 9 + m % 10 - 1) % 9 + 1) = m := by
      omega
    rw [if_pos h9, if_neg (by omega)]
    simp only
    rw [he', hq, if_pos h9, hm']
  · obtain rfl : e = 9 := by omega
    have he' : (1 + (m - 1) * 10 + 9 - 1) % 10 = 9 := by omega
    have hq : (1 + (m - 1) * 10 + 9 - 1) / 10 + 1 = m := by omega
    rw [if_neg h9, if_neg (by omega)]
    simp only
    rw [he', if_neg h9, hq]

/-- `n *= 10`, `e` times, does not wrap while the product fits. -/
theorem toNat_mulTen (n : UInt64) (e : ℕ) (h : n.toNat * 10 ^ e < 2 ^ 64) :
    (mulTen n e).toNat = n.toNat * 10 ^ e := by
  induction e generalizing n with
  | zero => simp [mulTen]
  | succ e ih =>
    have hpow : n.toNat * 10 ≤ n.toNat * 10 ^ (e + 1) :=
      Nat.mul_le_mul_left _ (Nat.le_self_pow (by omega) 10)
    have h10 : (n * 10).toNat = n.toNat * 10 := by
      rw [UInt64.toNat_mul]
      exact Nat.mod_eq_of_lt (by simp; omega)
    rw [mulTen, ih _ (by rw [h10, Nat.mul_assoc, ← pow_succ']; exact h), h10, Nat.mul_assoc,
      ← pow_succ']

/-- `DecompressAmount` wraps only where its exact result does not fit: only the loop multiplies
beyond the code's own size. -/
theorem toNat_DecompressAmount (x : UInt64) (h : decompressAmountExact x.toNat < 2 ^ 64) :
    (DecompressAmount x).toNat = decompressAmountExact x.toNat := by
  unfold DecompressAmount
  by_cases hx : x = 0
  · subst hx
    rfl
  have hx' : x.toNat ≠ 0 := by
    intro h0
    apply hx
    rw [← UInt64.toNat_inj, h0]
    rfl
  have hsub : (x - 1).toNat = x.toNat - 1 := by
    rw [UInt64.toNat_sub_of_le _ _ (by rw [UInt64.le_iff_toNat_le]; simp; omega)]
    rfl
  have he : ((x - 1) % 10).toNat = (x.toNat - 1) % 10 := by
    rw [UInt64.toNat_mod, hsub]
    rfl
  have hq : ((x - 1) / 10).toNat = (x.toNat - 1) / 10 := by
    rw [UInt64.toNat_div, hsub]
    rfl
  have hqlt : (x.toNat - 1) / 10 ≤ 2 ^ 64 / 10 := by
    have := x.toNat_lt
    omega
  -- the mantissa, before the loop, always fits
  have hmant : (if ((x - 1) % 10).toNat < 9 then (x - 1) / 10 / 9 * 10 + ((x - 1) / 10 % 9 + 1)
      else (x - 1) / 10 + 1).toNat =
      if (x.toNat - 1) % 10 < 9 then (x.toNat - 1) / 10 / 9 * 10 + ((x.toNat - 1) / 10 % 9 + 1)
      else (x.toNat - 1) / 10 + 1 := by
    rw [he]
    split_ifs
    · simp only [UInt64.toNat_add, UInt64.toNat_mul, UInt64.toNat_div, UInt64.toNat_mod, hq]
      simp only [UInt64.reduceToNat]
      omega
    · simp only [UInt64.toNat_add, hq, UInt64.reduceToNat]
      omega
  simp only [decompressAmountExact, if_neg hx'] at h ⊢
  rw [if_neg hx, toNat_mulTen _ _ (by rw [hmant, he]; exact h), hmant, he]

/-- Subtracting one modulo `2 ^ w` from a nonzero value below `2 ^ w`. -/
theorem two_pow_sub_one_add_mod {w y : ℕ} (h : 1 ≤ y) (hy : y < 2 ^ w) :
    (2 ^ w - 1 + y) % 2 ^ w = y - 1 := by
  rw [show 2 ^ w - 1 + y = (y - 1) + 2 ^ w by omega, Nat.add_mod_right]
  exact Nat.mod_eq_of_lt (by omega)

/-- `CompressAmount` does not wrap on an amount below `2 ^ 60`, such as every amount up to
`MAX_MONEY`. -/
theorem toNat_CompressAmount {n m : UInt64} {e : ℕ} (hn : n.toNat < 2 ^ 60) (h0 : n ≠ 0)
    (hs : stripZeros n 0 = (m, e)) (he : e ≤ 9) (hm : n.toNat = m.toNat * 10 ^ e)
    (hd : e < 9 → m.toNat % 10 ≠ 0) (hm0 : 0 < m.toNat) :
    (CompressAmount n).toNat =
      if e < 9 then 1 + (m.toNat / 10 * 9 + m.toNat % 10 - 1) * 10 + e
      else 1 + (m.toNat - 1) * 10 + 9 := by
  have hmle : m.toNat ≤ n.toNat := by
    rw [hm]
    exact Nat.le_mul_of_pos_right _ (Nat.pow_pos (by norm_num))
  unfold CompressAmount
  rw [if_neg h0, hs]
  by_cases h9 : e < 9
  · have hd' := hd h9
    -- every intermediate value is below `10 * n`, so each `% 2 ^ 64` drops
    simp (disch := omega) only [if_pos h9, UInt64.toNat_add, UInt64.toNat_mul, UInt64.toNat_div,
      UInt64.toNat_mod, UInt64.toNat_sub, UInt64.toNat_ofNat', UInt64.reduceToNat,
      Nat.mod_eq_of_lt, two_pow_sub_one_add_mod]
  · simp (disch := omega) only [if_neg h9, UInt64.toNat_add, UInt64.toNat_mul, UInt64.toNat_sub,
      UInt64.reduceToNat, Nat.mod_eq_of_lt, two_pow_sub_one_add_mod]

/-- Amounts below `2 ^ 60` round-trip, and their decoding does not wrap. -/
theorem DecompressAmount_CompressAmount (n : UInt64) (hn : n.toNat < 2 ^ 60) :
    DecompressAmount (CompressAmount n) = n ∧
      (DecompressAmount (CompressAmount n)).toNat = decompressAmountExact (CompressAmount n).toNat := by
  by_cases h0 : n = 0
  · subst h0
    exact ⟨rfl, rfl⟩
  obtain ⟨m, k, hs, hk, hm, hd⟩ := stripZeros_spec n 0 (Nat.zero_le 9)
  rw [Nat.zero_add] at hs hk hd
  have hm0 : 0 < m.toNat := by
    have hn0 : n.toNat ≠ 0 := fun h => h0 (UInt64.toNat_inj.mp (h.trans UInt64.toNat_zero.symm))
    rw [hm] at hn0
    exact Nat.pos_of_ne_zero (left_ne_zero_of_mul hn0)
  have hexact : decompressAmountExact (CompressAmount n).toNat = n.toNat := by
    rw [toNat_CompressAmount hn h0 hs hk hm hd hm0, decompressAmountExact_code hk hm0 hd, hm]
  have hdec := toNat_DecompressAmount _ (by rw [hexact]; exact n.toNat_lt)
  exact ⟨UInt64.toNat_inj.mp (hdec.trans hexact), hdec⟩

/-! ## Scripts -/

/-- The `CPubKey` operations the compressor calls: `IsFullyValid` of a 65-byte key, and
`Decompress` of a 33-byte compressed key into the 65 bytes that `DecompressScript` asserts. -/
structure PubKeyCodec where
  IsFullyValid : List UInt8 → Bool
  Decompress : List UInt8 → Option (List UInt8)
  length_Decompress : ∀ {vch pubkey : List UInt8}, Decompress vch = some pubkey → pubkey.length = 65

/-- Decompression inverts compression on fully valid keys: the compressed form of a key
`04 x y` is `02 x` or `03 x`, by the parity of `y`. -/
def PubKeyCodec.DecompressInverts (pk : PubKeyCodec) : Prop :=
  ∀ pubkey : List UInt8, pubkey.length = 65 → pubkey.getD 0 0 = 0x04 → pk.IsFullyValid pubkey = true →
    pk.Decompress ((0x02 + (pubkey.getD 64 0 &&& 0x01)) :: (pubkey.drop 1).take 32) = some pubkey

/-- `IsToKeyID`: the key hash of `OP_DUP OP_HASH160 <20 bytes> OP_EQUALVERIFY OP_CHECKSIG`. -/
def IsToKeyID (script : CScript) : Option (List UInt8) :=
  if script.length = 25 ∧ script.getD 0 0 = OP_DUP ∧ script.getD 1 0 = OP_HASH160 ∧
      script.getD 2 0 = 20 ∧ script.getD 23 0 = OP_EQUALVERIFY ∧ script.getD 24 0 = OP_CHECKSIG then
    some ((script.drop 3).take 20)
  else none

/-- `IsToScriptID`: the script hash of `OP_HASH160 <20 bytes> OP_EQUAL`. -/
def IsToScriptID (script : CScript) : Option (List UInt8) :=
  if script.length = 23 ∧ script.getD 0 0 = OP_HASH160 ∧ script.getD 1 0 = 20 ∧
      script.getD 22 0 = OP_EQUAL then
    some ((script.drop 2).take 20)
  else none

/-- `IsToPubKey`: the key of `<33 bytes> OP_CHECKSIG` with a compressed key, or of
`<65 bytes> OP_CHECKSIG` with an uncompressed key that is fully valid. -/
def IsToPubKey (pk : PubKeyCodec) (script : CScript) : Option (List UInt8) :=
  if script.length = 35 ∧ script.getD 0 0 = 33 ∧ script.getD 34 0 = OP_CHECKSIG ∧
      (script.getD 1 0 = 0x02 ∨ script.getD 1 0 = 0x03) then
    some ((script.drop 1).take 33)
  else if script.length = 67 ∧ script.getD 0 0 = 65 ∧ script.getD 66 0 = OP_CHECKSIG ∧
      script.getD 1 0 = 0x04 then
    let pubkey := (script.drop 1).take 65
    -- a key that is not fully valid could not be restored from its compressed form
    if pk.IsFullyValid pubkey then some pubkey else none
  else none

/-- `CompressScript`: the code byte and the 20 or 32 bytes of a special form. -/
def CompressScript (pk : PubKeyCodec) (script : CScript) : Option (List UInt8) :=
  match IsToKeyID script with
  | some keyID => some (0x00 :: keyID)
  | none =>
    match IsToScriptID script with
    | some scriptID => some (0x01 :: scriptID)
    | none =>
      match IsToPubKey pk script with
      | some pubkey =>
        if pubkey.getD 0 0 = 0x02 ∨ pubkey.getD 0 0 = 0x03 then
          some (pubkey.getD 0 0 :: (pubkey.drop 1).take 32)
        else if pubkey.getD 0 0 = 0x04 then
          some ((0x04 ||| (pubkey.getD 64 0 &&& 0x01)) :: (pubkey.drop 1).take 32)
        else none
      | none => none

/-- `GetSpecialScriptSize`. -/
def GetSpecialScriptSize (nSize : ℕ) : ℕ :=
  if nSize = 0 ∨ nSize = 1 then 20
  else if nSize = 2 ∨ nSize = 3 ∨ nSize = 4 ∨ nSize = 5 then 32
  else 0

/-- `DecompressScript`: the script of a special form, or `none` where it returns `false` and
leaves the script as it was. -/
def DecompressScript (pk : PubKeyCodec) (nSize : ℕ) (input : List UInt8) : Option CScript :=
  if nSize = 0x00 then
    some ([OP_DUP, OP_HASH160, 20] ++ input.take 20 ++ [OP_EQUALVERIFY, OP_CHECKSIG])
  else if nSize = 0x01 then
    some ([OP_HASH160, 20] ++ input.take 20 ++ [OP_EQUAL])
  else if nSize = 0x02 ∨ nSize = 0x03 then
    some ([33, UInt8.ofNat nSize] ++ input.take 32 ++ [OP_CHECKSIG])
  else if nSize = 0x04 ∨ nSize = 0x05 then
    let vch := UInt8.ofNat (nSize - 2) :: input.take 32
    (pk.Decompress vch).map fun pubkey => [65] ++ pubkey ++ [OP_CHECKSIG]
  else none

/-- `CScriptCompressor::nSpecialScripts`. -/
def nSpecialScripts : ℕ := 6

/-- `s >> MakeSpan(vch)`: the next `n` bytes of the stream. -/
def readSpan (n : ℕ) (s : List UInt8) : Except String (List UInt8 × List UInt8) :=
  if s.length < n then .error "CDataStream::read(): end of data" else .ok (s.take n, s.drop n)

/-- `CDataStream::ignore(nSize)`, whose `nSize` is an `int`. -/
def CDataStream.ignore (nSize : ℕ) (s : List UInt8) : Except String (List UInt8) :=
  if 2 ^ 31 ≤ nSize then .error "CDataStream::ignore(): nSize negative"
  else if s.length < nSize then .error "CDataStream::ignore(): end of data"
  else .ok (s.drop nSize)

/-- `CScriptCompressor::Serialize`: a special form as is, otherwise the size, offset by
`nSpecialScripts` in an `unsigned int`, and the bytes. -/
def CScriptCompressor.Serialize (pk : PubKeyCodec) (script : CScript) : List UInt8 :=
  match CompressScript pk script with
  | some compr => compr
  | none => WriteVarInt ((script.length + nSpecialScripts) % 2 ^ 32) ++ script

/-- `CScriptCompressor::Unserialize` into `script`: an overlong script is skipped and replaced
by `script << OP_RETURN`. -/
def CScriptCompressor.Unserialize (pk : PubKeyCodec) (script : CScript) (s : List UInt8) :
    Except String (CScript × List UInt8) := do
  let (nSize, s) ← ReadVarInt 32 s
  if nSize < nSpecialScripts then
    let (vch, s) ← readSpan (GetSpecialScriptSize nSize) s
    pure ((DecompressScript pk nSize vch).getD script, s)
  else
    let nSize := nSize - nSpecialScripts
    if MAX_SCRIPT_SIZE < nSize then
      let s ← CDataStream.ignore nSize s
      pure (script.pushOp OP_RETURN, s)
    else readSpan nSize s

/-! ### The special forms -/

/-- The `k` bytes of a list from its `i`-th on, one by one. -/
theorem take_drop_eq_map_getD {l : List UInt8} {i k : ℕ} (h : i + k ≤ l.length) :
    (l.drop i).take k = (List.range k).map fun j => l.getD (i + j) 0 := by
  apply List.ext_getElem
  · simp only [List.length_take, List.length_drop, List.length_map, List.length_range]
    omega
  · intro j h1 h2
    simp only [List.getElem_take, List.getElem_drop, List.getElem_map, List.getElem_range]
    rw [List.getD_eq_getElem _ _ (by simp at h1; omega)]

/-- A list of `a + m + b` bytes: its first `a` bytes one by one, the `m` after them, and its last
`b` bytes one by one. This is how the compressor reads a special form. -/
theorem eq_of_length_eq (l : List UInt8) (a m b : ℕ) (hl : l.length = a + m + b) :
    l = (List.range a).map (fun j => l.getD j 0) ++ (l.drop a).take m ++
      (List.range b).map fun j => l.getD (a + m + j) 0 := by
  have hpre : l.take a = (List.range a).map fun j => l.getD j 0 := by
    rw [← List.drop_zero (l := l), take_drop_eq_map_getD (by omega)]
    simp
  have hsuf : l.drop (a + m) = (List.range b).map fun j => l.getD (a + m + j) 0 := by
    rw [← take_drop_eq_map_getD (by omega), List.take_of_length_le (by simp; omega)]
  conv_lhs => rw [← List.take_append_drop a l, ← List.take_append_drop m (l.drop a), List.drop_drop]
  rw [← List.append_assoc, hpre, hsuf]

theorem eq_of_IsToKeyID {script keyID : CScript} (h : IsToKeyID script = some keyID) :
    keyID.length = 20 ∧ script = [OP_DUP, OP_HASH160, 20] ++ keyID ++ [OP_EQUALVERIFY, OP_CHECKSIG] := by
  unfold IsToKeyID at h
  split_ifs at h with hs
  obtain ⟨hl, h0, h1, h2, h23, h24⟩ := hs
  obtain rfl := Option.some.inj h
  refine ⟨by simp [hl], (eq_of_length_eq script 3 20 2 hl).trans ?_⟩
  simp only [List.getD_eq_getElem?_getD] at h0 h1 h2 h23 h24
  simp [List.range_succ, h0, h1, h2, h23, h24]

theorem eq_of_IsToScriptID {script scriptID : CScript} (h : IsToScriptID script = some scriptID) :
    scriptID.length = 20 ∧ script = [OP_HASH160, 20] ++ scriptID ++ [OP_EQUAL] := by
  unfold IsToScriptID at h
  split_ifs at h with hs
  obtain ⟨hl, h0, h1, h22⟩ := hs
  obtain rfl := Option.some.inj h
  refine ⟨by simp [hl], (eq_of_length_eq script 2 20 1 hl).trans ?_⟩
  simp only [List.getD_eq_getElem?_getD] at h0 h1 h22
  simp [List.range_succ, h0, h1, h22]

/-- A script `IsToPubKey` accepts is its key, between its length and `OP_CHECKSIG`: a compressed
key of 33 bytes, or a fully valid uncompressed key of 65. -/
theorem eq_of_IsToPubKey {pk : PubKeyCodec} {script pubkey : CScript}
    (h : IsToPubKey pk script = some pubkey) :
    (pubkey.length = 33 ∧ (pubkey.getD 0 0 = 0x02 ∨ pubkey.getD 0 0 = 0x03) ∧
        script = [33] ++ pubkey ++ [OP_CHECKSIG]) ∨
      (pubkey.length = 65 ∧ pubkey.getD 0 0 = 0x04 ∧ pk.IsFullyValid pubkey = true ∧
        script = [65] ++ pubkey ++ [OP_CHECKSIG]) := by
  unfold IsToPubKey at h
  dsimp only at h
  split_ifs at h with hs hs' hvalid
  · obtain ⟨hl, h0, h34, h1⟩ := hs
    obtain rfl := Option.some.inj h
    have hhead : ((script.drop 1).take 33).getD 0 0 = script.getD 1 0 := by
      simp [List.getD_eq_getElem?_getD]
    refine .inl ⟨by simp [hl], hhead ▸ h1, (eq_of_length_eq script 1 33 1 hl).trans ?_⟩
    simp only [List.getD_eq_getElem?_getD] at h0 h34
    simp [h0, h34]
  · obtain ⟨hl, h0, h66, h1⟩ := hs'
    obtain rfl := Option.some.inj h
    have hhead : ((script.drop 1).take 65).getD 0 0 = script.getD 1 0 := by
      simp [List.getD_eq_getElem?_getD]
    refine .inr ⟨by simp [hl], hhead ▸ h1, hvalid, (eq_of_length_eq script 1 65 1 hl).trans ?_⟩
    simp only [List.getD_eq_getElem?_getD] at h0 h66
    simp [h0, h66]

/-- A key is its first byte and the rest. -/
theorem eq_getD_cons_take {l : List UInt8} {k : ℕ} (hl : l.length = k + 1) :
    l = l.getD 0 0 :: (l.drop 1).take k := by
  obtain _ | ⟨b, l⟩ := l
  · simp at hl
  · simp only [List.length_cons] at hl
    simp [List.take_of_length_le (show l.length ≤ k by omega)]

/-- The code of an uncompressed key, `4` or `5` by the parity of `y`, less two is the first byte
of its compressed form. -/
theorem ofNat_code_sub_two (b : UInt8) :
    (0x04 ||| (b &&& 0x01)).toNat ∈ ({4, 5} : Finset ℕ) ∧
      UInt8.ofNat ((0x04 ||| (b &&& 0x01)).toNat - 2) = 0x02 + (b &&& 0x01) := by
  have hb : (b &&& 0x01).toNat < 2 := by
    rw [UInt8.toNat_and]
    exact lt_of_le_of_lt Nat.and_le_right (by decide)
  rcases (by omega : (b &&& 0x01).toNat = 0 ∨ (b &&& 0x01).toNat = 1) with h | h
  · rw [show b &&& 0x01 = 0 from UInt8.toNat_inj.mp h]
    decide
  · rw [show b &&& 0x01 = 1 from UInt8.toNat_inj.mp h]
    decide

/-- What `CompressScript` writes: a code below `nSpecialScripts`, then as many bytes as
`GetSpecialScriptSize` reads, which `DecompressScript` turns back into the script. -/
theorem CompressScript_spec {pk : PubKeyCodec} (hpk : pk.DecompressInverts) {script compr : CScript}
    (h : CompressScript pk script = some compr) :
    ∃ code input, compr = code :: input ∧ code.toNat < nSpecialScripts ∧
      input.length = GetSpecialScriptSize code.toNat ∧ DecompressScript pk code.toNat input = some script := by
  unfold CompressScript at h
  split at h
  · rename_i keyID hkey
    obtain rfl := Option.some.inj h
    obtain ⟨hlen, rfl⟩ := eq_of_IsToKeyID hkey
    refine ⟨0x00, keyID, rfl, by decide, hlen, ?_⟩
    simp [DecompressScript, List.take_of_length_le hlen.le]
  split at h
  · rename_i scriptID hscript
    obtain rfl := Option.some.inj h
    obtain ⟨hlen, rfl⟩ := eq_of_IsToScriptID hscript
    refine ⟨0x01, scriptID, rfl, by decide, hlen, ?_⟩
    simp [DecompressScript, List.take_of_length_le hlen.le]
  split at h
  · rename_i pubkey hpub
    rcases eq_of_IsToPubKey hpub with ⟨hlen, hhead, rfl⟩ | ⟨hlen, hhead, hvalid, rfl⟩
    · -- a compressed key is stored as it is
      rw [if_pos hhead] at h
      obtain rfl := Option.some.inj h
      have hin : ((pubkey.drop 1).take 32).length = 32 := by simp [hlen]
      have hcode : (pubkey.getD 0 0).toNat = 2 ∨ (pubkey.getD 0 0).toNat = 3 := by
        rcases hhead with h | h <;> rw [h] <;> decide
      refine ⟨_, _, rfl, by unfold nSpecialScripts; omega, ?_, ?_⟩
      · rw [hin, GetSpecialScriptSize, if_neg (by omega), if_pos (by omega)]
      · rw [DecompressScript, if_neg (by omega), if_neg (by omega), if_pos hcode,
          List.take_of_length_le hin.le, UInt8.ofNat_toNat]
        conv_rhs => rw [eq_getD_cons_take (k := 32) hlen]
        rfl
    · -- an uncompressed key is stored as `x`, with the parity of `y` in the code
      rw [if_neg (by rw [hhead]; decide), if_pos hhead] at h
      obtain rfl := Option.some.inj h
      obtain ⟨hcode, hvch⟩ := ofNat_code_sub_two (pubkey.getD 64 0)
      have hin : ((pubkey.drop 1).take 32).length = 32 := by simp [hlen]
      simp only [Finset.mem_insert, Finset.mem_singleton] at hcode
      refine ⟨_, _, rfl, by unfold nSpecialScripts; omega, ?_, ?_⟩
      · rw [hin, GetSpecialScriptSize, if_neg (by omega), if_pos (by omega)]
      · rw [DecompressScript, if_neg (by omega), if_neg (by omega), if_neg (by omega), if_pos hcode]
        simp only [List.take_of_length_le hin.le, hvch, hpk pubkey hlen hhead hvalid, Option.map_some]
  · cases h

theorem WriteVarInt_toNat_of_le {b : UInt8} (h : b.toNat ≤ 127) : WriteVarInt b.toNat = [b] := by
  rw [WriteVarInt_eq, if_pos h, UInt8.ofNat_toNat]

theorem readSpan_append {n : ℕ} {l : List UInt8} (hl : l.length = n) (rest : List UInt8) :
    readSpan n (l ++ rest) = .ok (l, rest) := by
  rw [readSpan, if_neg (by simp; omega)]
  simp [← hl]

/-- A script of at most `MAX_SCRIPT_SIZE` bytes reads back as it was written, whatever the script
it is read into. -/
theorem CScriptCompressor.Unserialize_Serialize {pk : PubKeyCodec} (hpk : pk.DecompressInverts)
    {script : CScript} (hs : script.length ≤ MAX_SCRIPT_SIZE) (init rest : List UInt8) :
    CScriptCompressor.Unserialize pk init (CScriptCompressor.Serialize pk script ++ rest) =
      .ok (script, rest) := by
  unfold CScriptCompressor.Serialize
  split
  · rename_i compr hc
    obtain ⟨code, input, rfl, hcode, hlen, hdec⟩ := CompressScript_spec hpk hc
    unfold nSpecialScripts at hcode
    have hw : code :: input ++ rest = WriteVarInt code.toNat ++ (input ++ rest) := by
      rw [WriteVarInt_toNat_of_le (by omega)]
      rfl
    rw [CScriptCompressor.Unserialize, hw, ReadVarInt_WriteVarInt (by omega), except_ok_bind]
    dsimp only
    rw [if_pos (by unfold nSpecialScripts; omega), ← hlen, readSpan_append rfl, except_ok_bind]
    dsimp only
    rw [hdec]
    rfl
  · -- any other script: its size, then its bytes
    have hsize : (script.length + nSpecialScripts) % 2 ^ 32 = script.length + nSpecialScripts := by
      unfold nSpecialScripts MAX_SCRIPT_SIZE at *
      omega
    rw [CScriptCompressor.Unserialize, List.append_assoc, hsize,
      ReadVarInt_WriteVarInt (by unfold nSpecialScripts MAX_SCRIPT_SIZE at *; omega)]
    simp [nSpecialScripts, show ¬MAX_SCRIPT_SIZE < script.length by omega, readSpan_append rfl]

/-! ## Outputs and coins -/

/-- `CTxOutCompressor`, writing: the amount, as a `uint64_t`, compressed. -/
def CTxOutCompressor.Serialize (pk : PubKeyCodec) (txout : CTxOut) : List UInt8 :=
  WriteVarInt (CompressAmount (UInt64.ofNat (toUInt64 txout.nValue))).toNat ++
    CScriptCompressor.Serialize pk txout.scriptPubKey

/-- `CTxOutCompressor`, reading into `txout`. -/
def CTxOutCompressor.Unserialize (pk : PubKeyCodec) (txout : CTxOut) (s : List UInt8) :
    Except String (CTxOut × List UInt8) := do
  let (nVal, s) ← ReadVarInt 64 s
  let nValue := toInt64 (DecompressAmount (UInt64.ofNat nVal)).toNat
  let (scriptPubKey, s) ← CScriptCompressor.Unserialize pk txout.scriptPubKey s
  pure (⟨nValue, scriptPubKey⟩, s)

/-- The code `Coin::Serialize` and `TxInUndoSerializer` write: the height shifted by two, plus
`2` for a coinstake and `1` for a coinbase, as an `unsigned int`. -/
def Coin.code (c : Coin) : ℕ :=
  ((c.nHeight <<< 2) + (if c.fCoinStake then 2 else 0) + (if c.fCoinBase then 1 else 0)) % 2 ^ 32

/-- `Coin::Serialize`. -/
def Coin.Serialize (pk : PubKeyCodec) (c : Coin) : List UInt8 :=
  WriteVarInt c.code ++ CTxOutCompressor.Serialize pk c.out

/-- `Coin::Unserialize` into `c`. -/
def Coin.Unserialize (pk : PubKeyCodec) (c : Coin) (s : List UInt8) :
    Except String (Coin × List UInt8) := do
  let (code, s) ← ReadVarInt 32 s
  let (out, s) ← CTxOutCompressor.Unserialize pk c.out s
  pure (⟨out, code &&& 1 == 1, (code >>> 1) &&& 1 == 1, code >>> 2⟩, s)

/-- `TxInUndoSerializer`: after a nonzero height, the zero byte older versions read as the
transaction's version. -/
def TxInUndoSerializer (pk : PubKeyCodec) (c : Coin) : List UInt8 :=
  WriteVarInt c.code ++ (if 0 < c.nHeight then ser_writedata8 0 else []) ++
    CTxOutCompressor.Serialize pk c.out

/-- `TxInUndoDeserializer` into `c`. -/
def TxInUndoDeserializer (pk : PubKeyCodec) (c : Coin) (s : List UInt8) :
    Except String (Coin × List UInt8) := do
  let (nCode, s) ← ReadVarInt 32 s
  let nHeight := nCode >>> 2
  let s ← if 0 < nHeight then (fun r => r.2) <$> ReadVarInt 32 s else pure s
  let (out, s) ← CTxOutCompressor.Unserialize pk c.out s
  pure (⟨out, nCode &&& 1 == 1, (nCode >>> 1) &&& 1 == 1, nHeight⟩, s)

/-! ### Round trips of outputs and coins -/

theorem MAX_MONEY_lt_two_pow_60 : (MAX_MONEY : ℤ) < 2 ^ 60 := by decide

/-- An amount in `[0, MAX_MONEY]` is written as the `uint64_t` of its value. -/
theorem toUInt64_of_money {v : CAmount} (h0 : 0 ≤ v) (hmax : v ≤ MAX_MONEY) :
    toUInt64 v = v.toNat ∧ v.toNat < 2 ^ 60 := by
  have hlt : (v : ℤ) < 2 ^ 60 := lt_of_le_of_lt hmax MAX_MONEY_lt_two_pow_60
  unfold CAmount at *
  unfold toUInt64
  rw [Int.emod_eq_of_lt h0 (by omega)]
  exact ⟨rfl, by omega⟩

/-- An output with an amount in `[0, MAX_MONEY]` and a script of at most `MAX_SCRIPT_SIZE` bytes
reads back as it was written, whatever the output it is read into. -/
theorem CTxOutCompressor.Unserialize_Serialize {pk : PubKeyCodec} (hpk : pk.DecompressInverts)
    {txout : CTxOut} (h0 : 0 ≤ txout.nValue) (hmax : txout.nValue ≤ MAX_MONEY)
    (hs : txout.scriptPubKey.length ≤ MAX_SCRIPT_SIZE) (init : CTxOut) (rest : List UInt8) :
    CTxOutCompressor.Unserialize pk init (CTxOutCompressor.Serialize pk txout ++ rest) =
      .ok (txout, rest) := by
  obtain ⟨hv, hlt⟩ := toUInt64_of_money h0 hmax
  have hn : (UInt64.ofNat (toUInt64 txout.nValue)).toNat = txout.nValue.toNat := by
    rw [UInt64.toNat_ofNat', hv]
    exact Nat.mod_eq_of_lt (by omega)
  obtain ⟨hround, -⟩ := DecompressAmount_CompressAmount _ (hn ▸ hlt)
  -- the amount comes back as the `int64_t` it was
  have hval : toInt64 ((UInt64.ofNat (toUInt64 txout.nValue)).toNat : ℤ) = txout.nValue := by
    rw [hn, Int.toNat_of_nonneg h0]
    exact toInt64_of_lt h0 (lt_of_le_of_lt hmax (MAX_MONEY_lt_two_pow_60.trans (by norm_num)))
  unfold CTxOutCompressor.Serialize CTxOutCompressor.Unserialize
  rw [List.append_assoc, ReadVarInt_WriteVarInt (UInt64.toNat_lt _), except_ok_bind]
  dsimp only
  rw [UInt64.ofNat_toNat, hround, hval, CScriptCompressor.Unserialize_Serialize hpk hs,
    except_ok_bind]
  rfl

/-- The code of a coin below height `2 ^ 30` fits an `unsigned int`, and gives back its height
and its two bits. -/
theorem Coin.code_fields {c : Coin} (h : c.nHeight < 2 ^ 30) :
    c.code < 2 ^ 32 ∧ c.code >>> 2 = c.nHeight ∧ (c.code &&& 1 == 1) = c.fCoinBase ∧
      ((c.code >>> 1) &&& 1 == 1) = c.fCoinStake := by
  have hcode : c.code =
      c.nHeight * 4 + (if c.fCoinStake then 2 else 0) + (if c.fCoinBase then 1 else 0) := by
    unfold Coin.code
    rw [Nat.shiftLeft_eq, Nat.mod_eq_of_lt (by split_ifs <;> omega)]
  rw [hcode, Nat.shiftRight_eq_div_pow, Nat.shiftRight_eq_div_pow, Nat.and_one_is_mod,
    Nat.and_one_is_mod]
  cases c.fCoinBase <;> cases c.fCoinStake <;> simp <;> omega

/-- The dummy byte of the undo format reads as a VarInt. -/
theorem ser_writedata8_zero : ser_writedata8 0 = WriteVarInt 0 := by
  rw [WriteVarInt_eq, if_pos (by norm_num)]
  rfl

/-- A coin below height `2 ^ 30` with an amount in `[0, MAX_MONEY]` and a script of at most
`MAX_SCRIPT_SIZE` bytes reads back as it was written, in the chainstate and in the undo files. -/
theorem Coin.Unserialize_Serialize {pk : PubKeyCodec} (hpk : pk.DecompressInverts) {c : Coin}
    (hh : c.nHeight < 2 ^ 30) (h0 : 0 ≤ c.out.nValue) (hmax : c.out.nValue ≤ MAX_MONEY)
    (hs : c.out.scriptPubKey.length ≤ MAX_SCRIPT_SIZE) (init : Coin) (rest : List UInt8) :
    Coin.Unserialize pk init (Coin.Serialize pk c ++ rest) = .ok (c, rest) ∧
      TxInUndoDeserializer pk init (TxInUndoSerializer pk c ++ rest) = .ok (c, rest) := by
  obtain ⟨hlt, hheight, hbase, hstake⟩ := Coin.code_fields hh
  have hout := CTxOutCompressor.Unserialize_Serialize hpk h0 hmax hs init.out rest
  constructor
  · unfold Coin.Serialize Coin.Unserialize
    rw [List.append_assoc, ReadVarInt_WriteVarInt hlt, except_ok_bind]
    dsimp only
    rw [hout, except_ok_bind, hbase, hstake, hheight]
    rfl
  · unfold TxInUndoSerializer TxInUndoDeserializer
    rw [List.append_assoc, List.append_assoc, ReadVarInt_WriteVarInt hlt, except_ok_bind]
    dsimp only
    rw [hheight]
    -- after a nonzero height, the dummy version is read and dropped
    by_cases hpos : 0 < c.nHeight
    · have hdummy : ((fun r : ℕ × List UInt8 => r.2) <$> (Except.ok (0, CTxOutCompressor.Serialize pk c.out ++ rest) :
          Except String (ℕ × List UInt8))) = .ok (CTxOutCompressor.Serialize pk c.out ++ rest) := rfl
      rw [if_pos hpos, if_pos hpos, ser_writedata8_zero, ReadVarInt_WriteVarInt (by norm_num), hdummy,
        except_ok_bind, hout, except_ok_bind, hbase, hstake]
      rfl
    · rw [if_neg hpos, if_neg hpos, List.nil_append, pure_bind, hout, except_ok_bind, hbase, hstake]
      rfl

/-- A key codec under which no uncompressed key is fully valid. -/
theorem PubKeyCodec.length_Decompress_none {pubkey : List UInt8}
    (h : (none : Option (List UInt8)) = some pubkey) : pubkey.length = 65 := by
  cases h

def PubKeyCodec.noKeys : PubKeyCodec :=
  ⟨fun _ => false, fun _ => none, PubKeyCodec.length_Decompress_none⟩

theorem PubKeyCodec.noKeys_DecompressInverts : PubKeyCodec.noKeys.DecompressInverts := by
  intro _ _ _ h
  simp [PubKeyCodec.noKeys] at h

theorem CTxOutCompressor_roundtrip :
    (∀ n : UInt64, (n.toNat : ℤ) ≤ MAX_MONEY →
      DecompressAmount (CompressAmount n) = n ∧
        (DecompressAmount (CompressAmount n)).toNat =
          decompressAmountExact (CompressAmount n).toNat) ∧
    Set.InjOn CompressAmount {n | (n.toNat : ℤ) ≤ MAX_MONEY} ∧
    (∀ pk : PubKeyCodec, pk.DecompressInverts → ∀ txout : CTxOut, 0 ≤ txout.nValue →
      txout.nValue ≤ MAX_MONEY → txout.scriptPubKey.length ≤ MAX_SCRIPT_SIZE → ∀ init rest,
        CTxOutCompressor.Unserialize pk init (CTxOutCompressor.Serialize pk txout ++ rest) =
          .ok (txout, rest)) ∧
    (∀ pk : PubKeyCodec, pk.DecompressInverts → ∀ c : Coin, c.nHeight < 2 ^ 30 →
      0 ≤ c.out.nValue → c.out.nValue ≤ MAX_MONEY → c.out.scriptPubKey.length ≤ MAX_SCRIPT_SIZE →
      ∀ init rest,
        Coin.Unserialize pk init (Coin.Serialize pk c ++ rest) = .ok (c, rest) ∧
          TxInUndoDeserializer pk init (TxInUndoSerializer pk c ++ rest) = .ok (c, rest)) := by
  have hamount : ∀ n : UInt64, (n.toNat : ℤ) ≤ MAX_MONEY → n.toNat < 2 ^ 60 := fun n h => by
    have := lt_of_le_of_lt h MAX_MONEY_lt_two_pow_60
    omega
  refine ⟨fun n h => DecompressAmount_CompressAmount n (hamount n h), ?_,
    fun pk hpk txout h0 hmax hs init rest => CTxOutCompressor.Unserialize_Serialize hpk h0 hmax hs init rest,
    fun pk hpk c hh h0 hmax hs init rest => Coin.Unserialize_Serialize hpk hh h0 hmax hs init rest⟩
  intro a ha b hb hab
  rw [← (DecompressAmount_CompressAmount a (hamount a ha)).1, hab,
    (DecompressAmount_CompressAmount b (hamount b hb)).1]

/-- A pay-to-key-hash coin of `5 COIN` at height `100`, and the amount `1000`. -/
theorem CTxOutCompressor_roundtrip_p2pkh :
    (((1000 : UInt64).toNat : ℤ) ≤ MAX_MONEY ∧ DecompressAmount (CompressAmount 1000) = 1000) ∧
      Coin.Unserialize PubKeyCodec.noKeys Coin.empty
          (Coin.Serialize PubKeyCodec.noKeys ⟨⟨5 * COIN, [OP_DUP, OP_HASH160, 20] ++ List.replicate 20 7 ++
            [OP_EQUALVERIFY, OP_CHECKSIG]⟩, false, false, 100⟩ ++ []) =
        .ok (⟨⟨5 * COIN, [OP_DUP, OP_HASH160, 20] ++ List.replicate 20 7 ++
          [OP_EQUALVERIFY, OP_CHECKSIG]⟩, false, false, 100⟩, []) := by
  obtain ⟨hamount, -, -, hcoin⟩ := CTxOutCompressor_roundtrip
  have h1000 : ((1000 : UInt64).toNat : ℤ) ≤ MAX_MONEY := by decide
  exact ⟨⟨h1000, (hamount 1000 h1000).1⟩, (hcoin PubKeyCodec.noKeys PubKeyCodec.noKeys_DecompressInverts
    _ (by decide) (by decide) (by decide) (by decide) Coin.empty []).1⟩

/-- The null output, of value `-1`: its amount is written as the `uint64_t` `2 ^ 64 - 1`, whose
code wraps in `DecompressAmount`, and the output reads back with another value. -/
theorem CTxOutCompressor_null_output :
    CTxOutCompressor.Unserialize PubKeyCodec.noKeys CTxOut.null
        (CTxOutCompressor.Serialize PubKeyCodec.noKeys CTxOut.null ++ []) =
      .ok (⟨2049638230412172324, []⟩, []) ∧
      (⟨2049638230412172324, []⟩ : CTxOut) ≠ CTxOut.null ∧
      (DecompressAmount (CompressAmount (UInt64.ofNat (2 ^ 64 - 1)))).toNat ≠
        decompressAmountExact (CompressAmount (UInt64.ofNat (2 ^ 64 - 1))).toNat := by
  have hnull : toUInt64 CTxOut.null.nValue = 2 ^ 64 - 1 := by decide
  have hscript : CScriptCompressor.Unserialize PubKeyCodec.noKeys []
      (CScriptCompressor.Serialize PubKeyCodec.noKeys [] ++ []) = .ok ([], []) :=
    CScriptCompressor.Unserialize_Serialize PubKeyCodec.noKeys_DecompressInverts (by decide) [] []
  refine ⟨?_, by decide, by decide +kernel⟩
  unfold CTxOutCompressor.Serialize CTxOutCompressor.Unserialize
  rw [List.append_assoc, ReadVarInt_WriteVarInt (UInt64.toNat_lt _), except_ok_bind]
  dsimp only
  rw [UInt64.ofNat_toNat, hnull]
  rw [show CTxOut.null.scriptPubKey = [] from rfl, hscript, except_ok_bind]
  decide +kernel

end HydraNode
