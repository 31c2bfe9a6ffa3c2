import HydraNode.Util.Base58
import HydraNode.Util.Bech32
import HydraNode.Crypto.Sha256
import HydraNode.Lydra.Faults
import HydraNode.Serialize

/-!
# Addresses

`EncodeDestination` (`key_io.cpp`) writes a key or script hash as Base58Check of the network's
one-byte prefix and the twenty bytes, and a witness program as Bech32 of the network's
human-readable part, the witness version and the program regrouped into 5-bit values.
`DecodeDestination` first tries Base58Check, and takes the result as a key or script hash when
it has 21 bytes and starts with the prefix; only otherwise it tries Bech32.

A Bech32 string is made of characters that Base58 mostly knows too, so it may also be valid
Base58Check. Its Base58 value lies between `h 58 ^ (n - 1)` and `(h + 1) 58 ^ (n - 1)` for its
length `n` and the value `h` of its first character, and a 21-byte payload with prefix `p` lies
between `p 256 ^ 24` and `(p + 1) 256 ^ 24`. On the main network and on regtest these ranges
never meet: the Base58 part passes every witness address on to Bech32 (`Base58Passes`,
`base58Passes_witnessAddress` with `separated_main`, `separated_regtest`), and every destination
comes back (`DecodeDestination_EncodeDestination`). On testnet, `th` and a 34-character string,
the length of a witness program of fifteen bytes, give a value whose first byte is `128`, the
testnet prefix of script hashes: such an address is read as a script hash whenever its last four
Base58 bytes happen to be the checksum, which the program in
`DecodeDestination_testnet_witness_as_script` shows. A testnet destination comes back exactly
when the Base58 part passes its address on (`address_roundtrip_networks`).

Hashes are numbers, their bytes in memory least significant first (`writeLE`); a
`WitnessUnknown` keeps the `length` bytes of its program as a list.

## Main definitions

* `CChainParams`, `CMainParams`, `CTestNetParams`, `CRegTestParams`
* `EncodeDestination`, `DecodeDestination`
-/

namespace HydraNode

namespace KeyIO

open Radix

/-! ## The source -/

/-- What the address functions read of `CChainParams`: `Base58Prefix(PUBKEY_ADDRESS)`,
`Base58Prefix(SCRIPT_ADDRESS)` and `Bech32HRP()`. -/
structure CChainParams where
  pubkeyPrefix : List UInt8
  scriptPrefix : List UInt8
  bech32HRP : List Char

/-- `CMainParams`. -/
def CMainParams : CChainParams := ⟨[40], [63], "hc".toList⟩

/-- `CTestNetParams`. -/
def CTestNetParams : CChainParams := ⟨[66], [128], "th".toList⟩

/-- `CRegTestParams`. -/
def CRegTestParams : CChainParams := ⟨[120], [110], "qcrt".toList⟩

/-- The witness program regrouped into 5-bit values: `ConvertBits<8, 5, true>`. -/
def toValues (program : List UInt8) : List ℕ := (ConvertBits 8 5 true (program.map UInt8.toNat)).1

/-- `DestinationEncoder`, the visitor of `EncodeDestination`. -/
def EncodeDestination (params : CChainParams) : CTxDestination → Except String (List Char)
  | .CKeyID id =>
    Base58.EncodeBase58Check Sha256.Hash (params.pubkeyPrefix ++ writeLE 20 id.val)
  | .CScriptID id =>
    Base58.EncodeBase58Check Sha256.Hash (params.scriptPrefix ++ writeLE 20 id.val)
  | .WitnessV0KeyHash id => .ok (Bech32.Encode params.bech32HRP (0 :: toValues (writeLE 20 id.val)))
  | .WitnessV0ScriptHash id =>
    .ok (Bech32.Encode params.bech32HRP (0 :: toValues (writeLE 32 id.val)))
  | .WitnessUnknown version program =>
    if version < 1 ∨ version > 16 ∨ program.length < 2 ∨ program.length > 40 then .ok []
    else .ok (Bech32.Encode params.bech32HRP (version % 256 :: toValues program))
  | .CNoDestination => .ok []

/-- The Base58 part of `DecodeDestination`: 21 bytes with the prefix of key hashes, or of script
hashes. -/
def decodeBase58Data (params : CChainParams) (data : List UInt8) : Option CTxDestination :=
  if data.length = 20 + params.pubkeyPrefix.length ∧
      data.take params.pubkeyPrefix.length = params.pubkeyPrefix then
    some (.CKeyID (Fin.ofNat _ (readLE (data.drop params.pubkeyPrefix.length))))
  else if data.length = 20 + params.scriptPrefix.length ∧
      data.take params.scriptPrefix.length = params.scriptPrefix then
    some (.CScriptID (Fin.ofNat _ (readLE (data.drop params.scriptPrefix.length))))
  else none

/-- The Bech32 part of `DecodeDestination`, on what `bech32::Decode` returned: the version, and
the program regrouped into bytes without padding. -/
def decodeBech32 (params : CChainParams) : Option (List Char × List ℕ) → CTxDestination
  | none => .CNoDestination
  | some (hrp, values) =>
    if values.length > 0 ∧ hrp = params.bech32HRP then
      let version := values.headD 0
      let (data, ok) := ConvertBits 5 8 false values.tail
      let data := data.map Nat.toUInt8
      if ok then
        if version = 0 then
          if data.length = 20 then .WitnessV0KeyHash (Fin.ofNat _ (readLE data))
          else if data.length = 32 then .WitnessV0ScriptHash (Fin.ofNat _ (readLE data))
          else .CNoDestination
        else if version > 16 ∨ data.length < 2 ∨ data.length > 40 then .CNoDestination
        else .WitnessUnknown version data
      else .CNoDestination
    else .CNoDestination

/-- `DecodeDestination`. -/
def DecodeDestination (params : CChainParams) (str : List Char) : Except String CTxDestination := do
  let decoded ← Base58.DecodeBase58Check Sha256.Hash str
  match decoded.bind (decodeBase58Data params) with
  | some dest => return dest
  | none => return decodeBech32 params (Bech32.Decode str)

/-- The Base58 part of `DecodeDestination` leaves the string to the Bech32 part:
`DecodeBase58Check` does not fail, and reads no key or script hash. -/
def Base58Passes (params : CChainParams) (str : List Char) : Prop :=
  ∃ r, Base58.DecodeBase58Check Sha256.Hash str = .ok r ∧ r.bind (decodeBase58Data params) = none

/-! ## The destinations with an address -/

/-- The destinations `EncodeDestination` writes a string for. -/
def IsEncodable : CTxDestination → Prop
  | .CNoDestination => False
  | .WitnessUnknown version program =>
    1 ≤ version ∧ version ≤ 16 ∧ 2 ≤ program.length ∧ program.length ≤ 40
  | _ => True

instance : DecidablePred IsEncodable := fun d => by
  cases d <;> unfold IsEncodable <;> infer_instance

/-- What the round trip needs of a network: prefixes of one byte that differ, and a
human-readable part of printable characters, none upper case, that does not start with a `1` and
leaves room for a program of 40 bytes in the 90 characters of a Bech32 string. -/
structure CChainParams.WellFormed (params : CChainParams) : Prop where
  pubkey_length : params.pubkeyPrefix.length = 1
  script_length : params.scriptPrefix.length = 1
  prefix_ne : params.pubkeyPrefix ≠ params.scriptPrefix
  hrp_ne_nil : params.bech32HRP ≠ []
  hrp_char : ∀ c ∈ params.bech32HRP, (33 ≤ c.toNat ∧ c.toNat ≤ 126) ∧ ¬('A' ≤ c ∧ c ≤ 'Z')
  hrp_length : params.bech32HRP.length ≤ 18
  hrp_head : params.bech32HRP.head? ≠ some '1'

theorem wellFormed_main : CMainParams.WellFormed where
  pubkey_length := rfl
  script_length := rfl
  prefix_ne := by decide
  hrp_ne_nil := by decide
  hrp_char := by
    change ∀ c ∈ ['h', 'c'], _
    simp only [List.mem_cons, List.not_mem_nil, or_false, forall_eq_or_imp, forall_eq]
    decide
  hrp_length := by decide
  hrp_head := by decide

theorem wellFormed_testnet : CTestNetParams.WellFormed where
  pubkey_length := rfl
  script_length := rfl
  prefix_ne := by decide
  hrp_ne_nil := by decide
  hrp_char := by
    change ∀ c ∈ ['t', 'h'], _
    simp only [List.mem_cons, List.not_mem_nil, or_false, forall_eq_or_imp, forall_eq]
    decide
  hrp_length := by decide
  hrp_head := by decide

theorem wellFormed_regtest : CRegTestParams.WellFormed where
  pubkey_length := rfl
  script_length := rfl
  prefix_ne := by decide
  hrp_ne_nil := by decide
  hrp_char := by
    change ∀ c ∈ ['q', 'c', 'r', 't'], _
    simp only [List.mem_cons, List.not_mem_nil, or_false, forall_eq_or_imp, forall_eq]
    decide
  hrp_length := by decide
  hrp_head := by decide

/-! ## Base58 values of Bech32 strings -/

/-- The Base58 strings of `k + 1` characters whose first character has value `h`, and the 25 bytes
whose first byte is `p`, have no number in common. -/
def RangesApart (h p k : ℕ) : Prop :=
  (h + 1) * 58 ^ k ≤ p * 256 ^ 24 ∨ (p + 1) * 256 ^ 24 ≤ h * 58 ^ k

instance (h p k : ℕ) : Decidable (RangesApart h p k) := by
  unfold RangesApart
  infer_instance

/-- The two ranges are apart below the length `a` and from the length `b` on. -/
theorem rangesApart_of_le {h p a b k : ℕ} (hlo : (h + 1) * 58 ^ a ≤ p * 256 ^ 24)
    (hhi : (p + 1) * 256 ^ 24 ≤ h * 58 ^ b) (hk : k ≤ a ∨ b ≤ k) : RangesApart h p k := by
  rcases hk with hk | hk
  · exact Or.inl (le_trans (Nat.mul_le_mul_left _ (Nat.pow_le_pow_right (by norm_num) hk)) hlo)
  · exact Or.inr (le_trans hhi (Nat.mul_le_mul_left _ (Nat.pow_le_pow_right (by norm_num) hk)))

theorem not_rangesApart {h p k N : ℕ} (hlo : h * 58 ^ k ≤ N) (hhi : N < (h + 1) * 58 ^ k)
    (plo : p * 256 ^ 24 ≤ N) (phi : N < (p + 1) * 256 ^ 24) : ¬RangesApart h p k := by
  rintro (happ | happ)
  · exact absurd (lt_of_lt_of_le hhi happ) (not_lt.mpr plo)
  · exact absurd (lt_of_lt_of_le phi happ) (not_lt.mpr hlo)

/-- A Bech32 string of `k + 1` characters is not read by Base58 as 25 bytes with one of the
network's prefixes in front. -/
def Separated (params : CChainParams) (k : ℕ) : Prop :=
  ∀ c ∈ params.bech32HRP.head?, ∀ p ∈ params.pubkeyPrefix ++ params.scriptPrefix,
    RangesApart (tableValue Base58.mapBase58 c).toNat p.toNat k

theorem separated_main (k : ℕ) : Separated CMainParams k := by
  have hk : k ≤ 32 ∨ 33 ≤ k := by omega
  intro c hc p hp
  obtain rfl : c = 'h' := by simpa [CMainParams] using hc.symm
  have hh : (tableValue Base58.mapBase58 'h').toNat = 40 := by decide
  rw [hh]
  simp only [CMainParams, List.cons_append, List.nil_append, List.mem_cons, List.not_mem_nil,
    or_false] at hp
  rcases hp with rfl | rfl <;> exact rangesApart_of_le (a := 32) (b := 33) (by decide) (by decide) hk

/-- On regtest the strings of 34 characters starting with `q` may be read as a key hash, but no
witness program has an address of that length. -/
theorem separated_regtest {k : ℕ} (hk : k ≠ 33) : Separated CRegTestParams k := by
  have hk : k ≤ 32 ∨ 34 ≤ k := by omega
  intro c hc p hp
  obtain rfl : c = 'q' := by simpa [CRegTestParams] using hc.symm
  have hq : (tableValue Base58.mapBase58 'q').toNat = 48 := by decide
  rw [hq]
  simp only [CRegTestParams, List.cons_append, List.nil_append, List.mem_cons, List.not_mem_nil,
    or_false] at hp
  rcases hp with rfl | rfl <;> exact rangesApart_of_le (a := 32) (b := 34) (by decide) (by decide) hk

/-- On testnet only strings of 34 characters may be read as a script hash. -/
theorem separated_testnet {k : ℕ} (hk : k ≠ 33) : Separated CTestNetParams k := by
  intro c hc p hp
  obtain rfl : c = 't' := by simpa [CTestNetParams] using hc.symm
  have ht : (tableValue Base58.mapBase58 't').toNat = 51 := by decide
  rw [ht]
  simp only [CTestNetParams, List.cons_append, List.nil_append, List.mem_cons, List.not_mem_nil,
    or_false] at hp
  rcases hp with rfl | rfl
  · exact rangesApart_of_le (a := 32) (b := 33) (by decide) (by decide) (by omega)
  · exact rangesApart_of_le (a := 32) (b := 34) (by decide) (by decide) (by omega)

/-! ## Reading a Bech32 string as Base58 -/

section Bech32Part

variable {params : CChainParams}

theorem IsSpace_lt {c : Char} (h : IsSpace c = true) : c.toNat < 33 := by
  simp only [IsSpace, Bool.or_eq_true, beq_iff_eq] at h
  rcases h with ((((h | h) | h) | h) | h) | h <;> subst h <;> decide

/-- A printable character is neither a `NUL` nor a space. -/
theorem printable_ne {c : Char} (h : 33 ≤ c.toNat) : c ≠ '\x00' ∧ IsSpace c = false := by
  refine ⟨fun h0 => absurd h (by rw [h0]; decide), ?_⟩
  cases hs : IsSpace c
  · rfl
  · exact absurd (IsSpace_lt hs) (by omega)

theorem length_Encode (hrp : List Char) (values : List ℕ) :
    (Bech32.Encode hrp values).length = hrp.length + values.length + 7 := by
  simp only [Bech32.Encode_eq, List.length_append, List.length_cons, List.length_map,
    Bech32.length_CreateChecksum]
  omega

/-- A Bech32 string has no `NUL` and no space, so Base58 reads it whole. -/
theorem Encode_chars (hp : params.WellFormed) {values : List ℕ} (hv : ∀ v ∈ values, v < 32) :
    ∀ c ∈ Bech32.Encode params.bech32HRP values, c ≠ '\x00' ∧ IsSpace c = false := by
  intro c hc
  rw [Bech32.Encode_eq, List.mem_append, List.mem_cons] at hc
  rcases hc with hc | rfl | hc
  · exact printable_ne (hp.hrp_char c hc).1.1
  · decide
  · obtain ⟨v, hv', rfl⟩ := List.mem_map.mp hc
    have hv32 : v < 32 := by
      rcases List.mem_append.mp hv' with h | h
      · exact hv v h
      · exact Bech32.CreateChecksum_lt _ _ v h
    exact printable_ne (Bech32.CHARSET_spec v hv32).1.1

/-- A payload the Base58 part of `DecodeDestination` takes is one of the prefixes and 20 bytes. -/
theorem decodeBase58Data_eq_some (hp : params.WellFormed) {data : List UInt8} {d : CTxDestination}
    (h : decodeBase58Data params data = some d) :
    ∃ p ∈ params.pubkeyPrefix ++ params.scriptPrefix, ∃ rest, data = p :: rest ∧ rest.length = 20 := by
  obtain ⟨pk, hpk⟩ := List.length_eq_one_iff.mp hp.pubkey_length
  obtain ⟨sc, hsc⟩ := List.length_eq_one_iff.mp hp.script_length
  have hcons : ∀ p, data.length = 20 + 1 ∧ data.take 1 = [p] →
      ∃ rest, data = p :: rest ∧ rest.length = 20 := by
    rintro p ⟨hl, ht⟩
    rcases data with _ | ⟨x, rest⟩
    · cases hl
    · rw [List.take_succ_cons, List.take_zero, List.cons.injEq] at ht
      rw [List.length_cons] at hl
      exact ⟨rest, by rw [ht.1], by omega⟩
  unfold decodeBase58Data at h
  rw [hpk, hsc] at h
  split_ifs at h with h1 h2
  · exact ⟨pk, by simp [hpk], hcons pk h1⟩
  · exact ⟨sc, by simp [hsc], hcons sc h2⟩

/-- Base58Check does not read a Bech32 string of a separated length as a key or script hash:
it rejects it, or reads a payload that is no such hash. -/
theorem decodeBase58Data_Encode (hp : params.WellFormed) (Hash : List UInt8 → Vector UInt8 32)
    {values : List ℕ} (hv : ∀ v ∈ values, v < 32) (hlen : values.length ≤ 65)
    (hsep : Separated params (params.bech32HRP.length + values.length + 6)) :
    ∃ r, Base58.DecodeBase58Check Hash (Bech32.Encode params.bech32HRP values) = .ok r ∧
      r.bind (decodeBase58Data params) = none := by
  have hslen := length_Encode params.bech32HRP values
  have hmax := hp.hrp_length
  cases hr : Base58.DecodeBase58Check Hash (Bech32.Encode params.bech32HRP values) with
  | error e => exact absurd hr (Base58.DecodeBase58Check_ne_error Hash (by omega) e)
  | ok r =>
    refine ⟨r, rfl, ?_⟩
    rcases r with _ | data
    · rfl
    cases hd : decodeBase58Data params data with
    | none => exact hd
    | some d =>
      exfalso
      obtain ⟨v, hdec, hv4, rfl⟩ := Base58.DecodeBase58Check_eq_some hr
      obtain ⟨p, hpmem, w, hvw, hw⟩ := decodeBase58Data_eq_some hp hd
      -- the Base58 value of the string, from its first character
      obtain ⟨c, t, hhrp⟩ := List.exists_cons_of_ne_nil hp.hrp_ne_nil
      have hread : Base58.readPart (Bech32.Encode params.bech32HRP values) =
          c :: (t ++ '1' :: (values ++ Bech32.CreateChecksum params.bech32HRP values).map
            fun c => Bech32.CHARSET.getD c '\x00') := by
        rw [Base58.readPart_eq_self (Encode_chars hp hv), Bech32.Encode_eq, hhrp, List.cons_append]
      have hc1 : c ≠ '1' := fun h => hp.hrp_head (by rw [hhrp, h]; rfl)
      obtain ⟨N, hvN, hlo, hhi⟩ := Base58.DecodeBase58_value hdec hread hc1
      -- the value of the 25 bytes, from the prefix in front
      have hv25 : v.length = 25 := by
        have := congrArg List.length hvw
        rw [List.length_take, List.length_cons, hw] at this
        omega
      rcases hL : (Nat.digits 256 N).reverse with _ | ⟨x, L⟩
      · rw [hL, List.map_nil] at hvN
        rw [hvN] at hv25
        cases hv25
      have hx : x < 256 := Nat.digits_lt_base (by norm_num)
        (List.mem_reverse.mp (by rw [hL]; exact List.mem_cons_self ..))
      rw [hL, List.map_cons] at hvN
      rw [hvN, List.length_cons, List.length_map] at hv25
      rw [hvN, List.length_cons, List.length_map, hv25, List.take_succ_cons] at hvw
      have hpx : p.toNat = x := by
        rw [← (List.cons.inj hvw).1]
        simp [Nat.mod_eq_of_lt hx]
      obtain ⟨plo, phi⟩ := bounds_of_digits_reverse (by norm_num) hL
      have hk : (t ++ '1' :: (values ++ Bech32.CreateChecksum params.bech32HRP values).map
          fun c => Bech32.CHARSET.getD c '\x00').length = params.bech32HRP.length + values.length + 6 := by
        simp only [List.length_append, List.length_cons, List.length_map,
          Bech32.length_CreateChecksum, hhrp]
        omega
      rw [hk] at hlo hhi
      have hL24 : L.length = 24 := by omega
      rw [hL24] at plo phi
      exact not_rangesApart hlo hhi (by rw [hpx]; exact plo) (by rw [hpx]; exact phi)
        (hsep c (by rw [hhrp]; rfl) p hpmem)

/-- A Bech32 string that the Base58 part passes on is read by the Bech32 part of
`DecodeDestination`. -/
theorem DecodeDestination_Encode (hp : params.WellFormed) {values : List ℕ}
    (hv : ∀ v ∈ values, v < 32) (hlen : values.length ≤ 65)
    (hpass : Base58Passes params (Bech32.Encode params.bech32HRP values)) :
    DecodeDestination params (Bech32.Encode params.bech32HRP values) =
      .ok (decodeBech32 params (some (params.bech32HRP, values))) := by
  obtain ⟨r, hr, hnone⟩ := hpass
  have hdec := Bech32.Decode_Encode hp.hrp_ne_nil hp.hrp_char hv (by have := hp.hrp_length; omega)
  unfold DecodeDestination
  rw [hr]
  simp only [bind, Except.bind]
  rw [hnone, hdec]
  rfl

end Bech32Part

/-! ## The round trip -/

/-- The witness version and program a witness destination is written with. -/
def witnessProgram : CTxDestination → Option (ℕ × List UInt8)
  | .WitnessV0KeyHash id => some (0, writeLE 20 id.val)
  | .WitnessV0ScriptHash id => some (0, writeLE 32 id.val)
  | .WitnessUnknown version program => some (version, program)
  | _ => none

theorem toValues_lt (program : List UInt8) : ∀ v ∈ toValues program, v < 32 :=
  (ConvertBits_pad_spec (by norm_num) (bytes_lt program)).2.1

theorem length_toValues (program : List UInt8) :
    (toValues program).length = (8 * program.length + 4) / 5 := by
  have h : (toValues program).length * 5 =
      8 * (program.map UInt8.toNat).length + padBits 8 5 (program.map UInt8.toNat).length :=
    (ConvertBits_pad_spec (by norm_num) (bytes_lt program)).2.2.1
  rw [List.length_map, padBits] at h
  omega

/-- Regrouping the 5-bit values back into bytes returns the program. -/
theorem ConvertBits_toValues (program : List UInt8) :
    ConvertBits 5 8 false (toValues program) = (program.map UInt8.toNat, true) :=
  ConvertBits_roundtrip_of_le (by norm_num) (by norm_num) (by norm_num) (bytes_lt program)

theorem map_toUInt8_toNat (program : List UInt8) :
    (program.map UInt8.toNat).map Nat.toUInt8 = program := by
  rw [List.map_map]
  conv_rhs => rw [← List.map_id program]
  exact List.map_congr_left fun b _ => by simp

/-- A hash written as its bytes is read back. -/
theorem ofNat_readLE_writeLE {m : ℕ} [NeZero m] (n : ℕ) (hm : m = 256 ^ n) (x : Fin m) :
    Fin.ofNat m (readLE (writeLE n x.val)) = x := by
  rw [readLE_writeLE, ← hm, Nat.mod_eq_of_lt x.isLt, Fin.ofNat_val_eq_self]

section Decode

variable {params : CChainParams}

/-- The Bech32 part of `DecodeDestination` on a version and a program regrouped as the encoder
does. -/
theorem decodeBech32_toValues (version : ℕ) (program : List UInt8) :
    decodeBech32 params (some (params.bech32HRP, version :: toValues program)) =
      if version = 0 then
        if program.length = 20 then .WitnessV0KeyHash (Fin.ofNat _ (readLE program))
        else if program.length = 32 then .WitnessV0ScriptHash (Fin.ofNat _ (readLE program))
        else .CNoDestination
      else if version > 16 ∨ program.length < 2 ∨ program.length > 40 then .CNoDestination
      else .WitnessUnknown version program := by
  simp only [decodeBech32, List.length_cons, gt_iff_lt, Nat.zero_lt_succ, and_self, if_true,
    List.headD_cons, List.tail_cons, ConvertBits_toValues, map_toUInt8_toNat]

theorem decodeBase58Data_pubkey {b : List UInt8} (hb : b.length = 20) :
    decodeBase58Data params (params.pubkeyPrefix ++ b) =
      some (.CKeyID (Fin.ofNat _ (readLE b))) := by
  unfold decodeBase58Data
  rw [if_pos ⟨by rw [List.length_append, hb, Nat.add_comm], List.take_left' rfl⟩,
    List.drop_left' rfl]

/-- A script hash is not taken for a key hash: the prefixes differ. -/
theorem decodeBase58Data_script (hp : params.WellFormed) {b : List UInt8} (hb : b.length = 20) :
    decodeBase58Data params (params.scriptPrefix ++ b) =
      some (.CScriptID (Fin.ofNat _ (readLE b))) := by
  have hlen : params.pubkeyPrefix.length = params.scriptPrefix.length := by
    rw [hp.pubkey_length, hp.script_length]
  unfold decodeBase58Data
  rw [if_neg fun h => hp.prefix_ne (by rw [← h.2, hlen, List.take_left' rfl]),
    if_pos ⟨by rw [List.length_append, hb, Nat.add_comm], List.take_left' rfl⟩, List.drop_left' rfl]

/-- A payload the Base58 part takes is read back from its Base58Check string. -/
theorem DecodeDestination_EncodeBase58Check {data : List UInt8} {d : CTxDestination}
    (hlen : data.length ≤ 1000) (hd : decodeBase58Data params data = some d) :
    ∃ s, Base58.EncodeBase58Check Sha256.Hash data = .ok s ∧ DecodeDestination params s = .ok d := by
  obtain ⟨s, hs, hdec⟩ := Base58.DecodeBase58Check_EncodeBase58Check Sha256.Hash (b := data)
    (by omega)
  refine ⟨s, hs, ?_⟩
  unfold DecodeDestination
  rw [hdec]
  simp only [bind, Except.bind, Option.bind, hd]
  rfl

/-- The address of a witness version and program: Bech32 of the version and the program regrouped
into 5-bit values. -/
def witnessAddress (params : CChainParams) (w : ℕ × List UInt8) : List Char :=
  Bech32.Encode params.bech32HRP (w.1 % 256 :: toValues w.2)

theorem witnessValues_lt {version : ℕ} (hver : version < 32) (program : List UInt8) :
    ∀ v ∈ version :: toValues program, v < 32 := by
  intro v hv'
  rcases List.mem_cons.mp hv' with rfl | hv'
  · exact hver
  · exact toValues_lt program v hv'

theorem witnessAddress_of_lt {version : ℕ} (hver : version < 256) (program : List UInt8) :
    witnessAddress params (version, program) =
      Bech32.Encode params.bech32HRP (version :: toValues program) := by
  rw [witnessAddress, Nat.mod_eq_of_lt hver]

/-- At a separated length the Base58 part passes a witness address on. -/
theorem base58Passes_witnessAddress (hp : params.WellFormed) {version : ℕ} {program : List UInt8}
    (hver : version < 32) (hL : program.length ≤ 40)
    (hsep : Separated params (params.bech32HRP.length + (8 * program.length + 4) / 5 + 7)) :
    Base58Passes params (witnessAddress params (version, program)) := by
  have hlen := length_toValues program
  rw [witnessAddress_of_lt (by omega)]
  refine decodeBase58Data_Encode hp Sha256.Hash (witnessValues_lt hver program)
    (by rw [List.length_cons]; omega) ?_
  rwa [List.length_cons, hlen, show params.bech32HRP.length + ((8 * program.length + 4) / 5 + 1) + 6
    = params.bech32HRP.length + (8 * program.length + 4) / 5 + 7 by omega]

/-- A witness program is read back from its Bech32 string when the Base58 part passes it on. -/
theorem DecodeDestination_witness (hp : params.WellFormed) {version : ℕ} {program : List UInt8}
    (hver : version < 32) (hL : program.length ≤ 40)
    (hpass : Base58Passes params (Bech32.Encode params.bech32HRP (version :: toValues program))) :
    DecodeDestination params (Bech32.Encode params.bech32HRP (version :: toValues program)) =
      .ok (decodeBech32 params (some (params.bech32HRP, version :: toValues program))) := by
  have hlen := length_toValues program
  exact DecodeDestination_Encode hp (witnessValues_lt hver program)
    (by rw [List.length_cons]; omega) hpass

/-- Every destination with an address is read back from it, on a well-formed network, when the
Base58 part of `DecodeDestination` passes its witness address on. -/
theorem DecodeDestination_EncodeDestination (hp : params.WellFormed) {d : CTxDestination}
    (hd : IsEncodable d)
    (hpass : ∀ w ∈ witnessProgram d, Base58Passes params (witnessAddress params w)) :
    ∃ s, EncodeDestination params d = .ok s ∧ DecodeDestination params s = .ok d := by
  have hpk := hp.pubkey_length
  have hsc := hp.script_length
  cases d with
  | CNoDestination => exact hd.elim
  | CKeyID id =>
    refine DecodeDestination_EncodeBase58Check (by simp [hpk])
      ((decodeBase58Data_pubkey (length_writeLE 20 _)).trans ?_)
    rw [ofNat_readLE_writeLE 20 (by norm_num)]
  | CScriptID id =>
    refine DecodeDestination_EncodeBase58Check (by simp [hsc])
      ((decodeBase58Data_script hp (length_writeLE 20 _)).trans ?_)
    rw [ofNat_readLE_writeLE 20 (by norm_num)]
  | WitnessV0KeyHash id =>
    refine ⟨_, rfl, ?_⟩
    have hpass' := hpass _ rfl
    rw [witnessAddress_of_lt (by norm_num)] at hpass'
    rw [DecodeDestination_witness hp (by norm_num) (by simp) hpass', decodeBech32_toValues,
      length_writeLE, ofNat_readLE_writeLE 20 (by norm_num)]
    rfl
  | WitnessV0ScriptHash id =>
    refine ⟨_, rfl, ?_⟩
    have hpass' := hpass _ rfl
    rw [witnessAddress_of_lt (by norm_num)] at hpass'
    rw [DecodeDestination_witness hp (by norm_num) (by simp) hpass', decodeBech32_toValues,
      length_writeLE, ofNat_readLE_writeLE 32 (by norm_num)]
    rfl
  | WitnessUnknown version program =>
    obtain ⟨h1, h16, h2, h40⟩ := hd
    have hpass' := hpass (version, program) rfl
    rw [witnessAddress_of_lt (by omega)] at hpass'
    refine ⟨_, if_neg (by omega), ?_⟩
    rw [Nat.mod_eq_of_lt (show version < 256 by omega),
      DecodeDestination_witness hp (by omega) h40 hpass',
      decodeBech32_toValues, if_neg (by omega), if_neg (by omega)]

/-- The version and the program of a witness destination with an address are those a Bech32
address holds. -/
theorem witnessProgram_bounds {d : CTxDestination} (hd : IsEncodable d) {w : ℕ × List UInt8}
    (hw : witnessProgram d = some w) : w.1 < 32 ∧ w.2.length ≤ 40 := by
  cases d with
  | WitnessV0KeyHash id =>
    obtain rfl := Option.some.inj hw
    simp
  | WitnessV0ScriptHash id =>
    obtain rfl := Option.some.inj hw
    simp
  | WitnessUnknown version program =>
    obtain rfl := Option.some.inj hw
    obtain ⟨-, h16, -, h40⟩ := hd
    exact ⟨by dsimp only; omega, h40⟩
  | _ => cases hw

/-- A witness destination with an address is written as its witness address. -/
theorem EncodeDestination_witness {d : CTxDestination} (hd : IsEncodable d) {w : ℕ × List UInt8}
    (hw : witnessProgram d = some w) :
    EncodeDestination params d = .ok (witnessAddress params w) := by
  cases d with
  | WitnessV0KeyHash id =>
    obtain rfl := Option.some.inj hw
    rfl
  | WitnessV0ScriptHash id =>
    obtain rfl := Option.some.inj hw
    rfl
  | WitnessUnknown version program =>
    obtain rfl := Option.some.inj hw
    obtain ⟨h1, h16, h2, h40⟩ := hd
    exact if_neg (by omega)
  | _ => cases hw

/-- What the Base58 part of `DecodeDestination` takes is a key or script hash. -/
theorem witnessProgram_of_decodeBase58Data {data : List UInt8} {d : CTxDestination}
    (h : decodeBase58Data params data = some d) : witnessProgram d = none := by
  unfold decodeBase58Data at h
  split_ifs at h <;> (obtain rfl := Option.some.inj h; rfl)

/-- A string read back as a witness destination was passed on by the Base58 part. -/
theorem base58Passes_of_DecodeDestination {d : CTxDestination} {w : ℕ × List UInt8}
    (hw : witnessProgram d = some w) {str : List Char}
    (hdec : DecodeDestination params str = .ok d) : Base58Passes params str := by
  unfold DecodeDestination at hdec
  cases hr : Base58.DecodeBase58Check Sha256.Hash str with
  | error e =>
    rw [hr] at hdec
    cases hdec
  | ok r =>
    refine ⟨r, hr, ?_⟩
    rw [hr] at hdec
    cases hb : r.bind (decodeBase58Data params) with
    | none => rfl
    | some dest =>
      simp only [bind, Except.bind, hb] at hdec
      obtain rfl : dest = d := Except.ok.inj hdec
      obtain ⟨data, -, hdata⟩ := Option.bind_eq_some_iff.mp hb
      rw [witnessProgram_of_decodeBase58Data hdata] at hw
      cases hw

/-- `EncodeDestination` writes the empty string exactly for the destinations without an
address. -/
theorem EncodeDestination_eq_nil_iff (hp : params.WellFormed) (d : CTxDestination) :
    EncodeDestination params d = .ok [] ↔ ¬IsEncodable d := by
  have hpk := hp.pubkey_length
  have hsc := hp.script_length
  have hbech : ∀ values, Bech32.Encode params.bech32HRP values ≠ [] := fun values h => by
    simp [Bech32.Encode_eq] at h
  cases d with
  | CNoDestination => exact iff_of_true rfl not_false
  | CKeyID id =>
    exact iff_of_false (Base58.EncodeBase58Check_ne_nil Sha256.Hash
      (b := params.pubkeyPrefix ++ writeLE 20 id.val) (by simp [hpk])) (not_not.mpr trivial)
  | CScriptID id =>
    exact iff_of_false (Base58.EncodeBase58Check_ne_nil Sha256.Hash
      (b := params.scriptPrefix ++ writeLE 20 id.val) (by simp [hsc])) (not_not.mpr trivial)
  | WitnessV0KeyHash id =>
    exact iff_of_false (fun h => hbech _ (Except.ok.inj h)) (not_not.mpr trivial)
  | WitnessV0ScriptHash id =>
    exact iff_of_false (fun h => hbech _ (Except.ok.inj h)) (not_not.mpr trivial)
  | WitnessUnknown version program =>
    dsimp only [EncodeDestination, IsEncodable]
    by_cases hr : version < 1 ∨ version > 16 ∨ program.length < 2 ∨ program.length > 40
    · rw [if_pos hr]
      exact iff_of_true rfl (by omega)
    · rw [if_neg hr]
      exact iff_of_false (fun h => hbech _ (Except.ok.inj h)) (by omega)

end Decode

/-! ## The three networks -/

/-- On the main network and on regtest every destination with an address is read back from it.
On testnet a destination with an address is read back from it exactly when the Base58 part of
`DecodeDestination` passes its witness address on, as it does for every program of another
length than 15 bytes. On each network `EncodeDestination` writes the empty string exactly for the
destinations without an address. -/
theorem address_roundtrip_networks :
    (∀ d, IsEncodable d → ∃ s, EncodeDestination CMainParams d = .ok s ∧
      DecodeDestination CMainParams s = .ok d) ∧
    (∀ d, IsEncodable d → ∃ s, EncodeDestination CRegTestParams d = .ok s ∧
      DecodeDestination CRegTestParams s = .ok d) ∧
    (∀ d, IsEncodable d →
      ((∃ s, EncodeDestination CTestNetParams d = .ok s ∧
          DecodeDestination CTestNetParams s = .ok d) ↔
        ∀ w ∈ witnessProgram d, Base58Passes CTestNetParams (witnessAddress CTestNetParams w))) ∧
    (∀ (version : ℕ) (program : List UInt8), version < 32 → program.length ≤ 40 →
      program.length ≠ 15 →
      Base58Passes CTestNetParams (witnessAddress CTestNetParams (version, program))) ∧
    (∀ params ∈ [CMainParams, CTestNetParams, CRegTestParams], ∀ d,
      EncodeDestination params d = .ok [] ↔ ¬IsEncodable d) := by
  -- a separated length is one the Base58 part passes on
  have hmain : ∀ d, IsEncodable d → ∀ w ∈ witnessProgram d,
      Base58Passes CMainParams (witnessAddress CMainParams w) := fun d hd w hw => by
    obtain ⟨hver, hL⟩ := witnessProgram_bounds hd hw
    exact base58Passes_witnessAddress wellFormed_main hver hL (separated_main _)
  have hreg : ∀ d, IsEncodable d → ∀ w ∈ witnessProgram d,
      Base58Passes CRegTestParams (witnessAddress CRegTestParams w) := fun d hd w hw => by
    obtain ⟨hver, hL⟩ := witnessProgram_bounds hd hw
    have hhrp : CRegTestParams.bech32HRP.length = 4 := rfl
    exact base58Passes_witnessAddress wellFormed_regtest hver hL (separated_regtest (by omega))
  have htest : CTestNetParams.bech32HRP.length = 2 := rfl
  refine ⟨fun d hd => DecodeDestination_EncodeDestination wellFormed_main hd (hmain d hd),
    fun d hd => DecodeDestination_EncodeDestination wellFormed_regtest hd (hreg d hd),
    fun d hd => ⟨?only, DecodeDestination_EncodeDestination wellFormed_testnet hd⟩,
    fun version program hver hL h15 => base58Passes_witnessAddress wellFormed_testnet hver hL
      (separated_testnet (by omega)), ?_⟩
  case only =>
    -- what the Base58 part takes is a key or script hash, never the witness destination
    rintro ⟨s, hs, hdec⟩ w hw
    rw [EncodeDestination_witness hd hw] at hs
    obtain rfl := Except.ok.inj hs
    exact base58Passes_of_DecodeDestination hw hdec
  · intro params hparams d
    simp only [List.mem_cons, List.not_mem_nil, or_false] at hparams
    rcases hparams with rfl | rfl | rfl
    · exact EncodeDestination_eq_nil_iff wellFormed_main d
    · exact EncodeDestination_eq_nil_iff wellFormed_testnet d
    · exact EncodeDestination_eq_nil_iff wellFormed_regtest d

/-- A key hash on the main network, and on testnet a witness key hash, whose twenty bytes the
Base58 part passes on. -/
theorem address_roundtrip_networks_keyhash :
    (∃ s, EncodeDestination CMainParams (.CKeyID 0) = .ok s ∧
      DecodeDestination CMainParams s = .ok (.CKeyID 0)) ∧
    ∃ s, EncodeDestination CTestNetParams (.WitnessV0KeyHash 0) = .ok s ∧
      DecodeDestination CTestNetParams s = .ok (.WitnessV0KeyHash 0) :=
  ⟨address_roundtrip_networks.1 _ trivial,
    (address_roundtrip_networks.2.2.1 (.WitnessV0KeyHash 0) trivial).mpr fun w hw => by
      obtain rfl := Option.some.inj hw
      exact address_roundtrip_networks.2.2.2.1 0 _ (by norm_num) (by simp) (by simp)⟩

/-- A testnet address of a fifteen-byte witness program that is read back as a script hash: its
25 Base58 bytes start with the testnet script prefix `128` and end with the checksum of the
other 21. -/
theorem DecodeDestination_testnet_witness_as_script :
    EncodeDestination CTestNetParams (.WitnessUnknown 10
        [0x87, 0xb5, 0x25, 0x24, 0x31, 0x37, 0x98, 0x25, 0x13, 0x48, 0x0b, 0xad, 0x0d, 0x7a, 0x69]) =
      .ok "th12s76j2fp3x7vz2y6gpwks67nfvm7z2d".toList ∧
    DecodeDestination CTestNetParams "th12s76j2fp3x7vz2y6gpwks67nfvm7z2d".toList =
      .ok (.CScriptID (Fin.ofNat _ (readLE [0x75, 0xca, 0xa7, 0xd9, 0x0a, 0xdd, 0xa7, 0x15, 0xdd,
        0x98, 0x6d, 0x6b, 0x93, 0x59, 0xdb, 0x72, 0x89, 0x7e, 0x90, 0xcc]))) := by
  constructor <;> decide +kernel

end KeyIO

end HydraNode
