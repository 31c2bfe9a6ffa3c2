import Mathlib

/-!
# Strict DER signatures

`IsValidSignatureEncoding` (`script/interpreter.cpp`) checks that a signature is
`0x30 L 0x02 lenR R 0x02 lenS S`, followed by a hash type byte when `haveHashType`, with `R`
and `S` minimal big-endian two's-complement integers and `L = lenR + lenS + 4`. It reads the
bytes one by one with `sig[i]`; the model reads them with `sig[i]?`, so that a read past the end
is `none` and memory safety is the statement that the result is never `none`.

The size bounds `9` and `73` are shared by both modes, although the hash type byte is absent in
one of them. With a hash type the DER part has `8` to `72` bytes; without one (the delegate
signature of a block header) it has `9` to `73`, so the shortest encoding, with one byte each for
`R` and `S`, is rejected, and a `73`-byte one is accepted (`der_sizes_without_hash_type`).
Everything else is exactly the grammar (`IsValidSignatureEncoding_iff_grammar`). The grammar
also admits the single byte `00`, the encoding of zero.

## Main definitions

* `IsValidSignatureEncoding`, `CheckSignatureEncoding`
* `IsMinimalInt`, `IsDERGrammar` — the grammar

## Main results

* `IsValidSignatureEncoding_isSome` — no read past the end
* `IsValidSignatureEncoding_decomposed` — the checks on a signature split along its grammar
* `IsValidSignatureEncoding_iff_grammar`
-/

namespace HydraNode

/-! ## The checks -/

/-- The four checks `IsValidSignatureEncoding` makes of each integer, whose tag is at `pos` and
whose `len` bytes start at `pos + 2`: the tag, a nonzero length, the sign bit, and a leading zero
byte only before a byte that would otherwise make the integer negative. -/
def checkInteger (sig : List UInt8) (pos len : ℕ) : Option Bool :=
  sig[pos]? >>= fun tag =>
  if tag ≠ 0x02 then some false
  else if len = 0 then some false
  else sig[pos + 2]? >>= fun first =>
  if first &&& 0x80 ≠ 0 then some false
  -- `len > 1 && sig[pos + 2] == 0x00 && !(sig[pos + 3] & 0x80)`: the third read only after the
  -- first two tests pass
  else if 1 < len ∧ first = 0x00 then sig[pos + 3]?.map fun second => second &&& 0x80 ≠ 0
  else some true

/-- `IsValidSignatureEncoding(sig, haveHashType)`. -/
def IsValidSignatureEncoding (sig : List UInt8) (haveHashType : Bool) : Option Bool :=
  -- Minimum and maximum size constraints.
  if sig.length < 9 then some false
  else if sig.length > 73 then some false
  else sig[0]? >>= fun b0 =>
  -- A signature is of type 0x30 (compound).
  if b0 ≠ 0x30 then some false
  else sig[1]? >>= fun b1 =>
  -- Make sure the length covers the entire signature.
  if b1.toNat ≠ sig.length - (if haveHashType then 3 else 2) then some false
  else sig[3]? >>= fun b3 =>
  let lenR := b3.toNat
  -- Make sure the length of the S element is still inside the signature.
  if 5 + lenR ≥ sig.length then some false
  else sig[5 + lenR]? >>= fun b5 =>
  let lenS := b5.toNat
  -- Verify that the length of the signature matches the sum of the length of the elements.
  if lenR + lenS + (if haveHashType then 7 else 6) ≠ sig.length then some false
  else checkInteger sig 2 lenR >>= fun okR =>
  if !okR then some false
  else checkInteger sig (lenR + 4) lenS

/-- The errors `CheckSignatureEncoding` reports. -/
inductive ScriptError where
  | SCRIPT_ERR_SIG_DER
  | SCRIPT_ERR_SIG_HIGH_S
  | SCRIPT_ERR_SIG_HASHTYPE
  deriving DecidableEq, Repr

/-- `IsLowDERSignature(vchSig, serror, haveHashType)`, with `CPubKey::CheckLowS` as a parameter:
it reads the signature without its hash type byte. -/
def IsLowDERSignature (CheckLowS : List UInt8 → Bool) (vchSig : List UInt8)
    (haveHashType : Bool) : Except ScriptError Unit :=
  if IsValidSignatureEncoding vchSig haveHashType ≠ some true then .error .SCRIPT_ERR_SIG_DER
  else if !CheckLowS (vchSig.take (vchSig.length - if haveHashType then 1 else 0)) then
    .error .SCRIPT_ERR_SIG_HIGH_S
  else .ok ()

/-- `IsDERSignature(vchSig, serror, haveHashType)`. -/
def IsDERSignature (vchSig : List UInt8) (haveHashType : Bool) : Except ScriptError Unit :=
  if IsValidSignatureEncoding vchSig haveHashType ≠ some true then .error .SCRIPT_ERR_SIG_DER
  else .ok ()

/-- `IsDefinedHashtypeSignature`: the last byte without `SIGHASH_ANYONECANPAY` is one of
`SIGHASH_ALL`, `SIGHASH_NONE`, `SIGHASH_SINGLE`. -/
def IsDefinedHashtypeSignature (vchSig : List UInt8) : Bool :=
  match vchSig.getLast? with
  | none => false
  | some last =>
    let nHashType := last &&& ~~~0x80
    !(nHashType < 1 || nHashType > 3)

def SCRIPT_VERIFY_STRICTENC : UInt32 := (1 : UInt32) <<< 1
def SCRIPT_VERIFY_DERSIG : UInt32 := (1 : UInt32) <<< 2
def SCRIPT_VERIFY_LOW_S : UInt32 := (1 : UInt32) <<< 3

/-- `CheckSignatureEncoding(vchSig, flags, serror)`: an empty signature passes; the three flags
each ask for the strict encoding with a hash type byte. -/
def CheckSignatureEncoding (CheckLowS : List UInt8 → Bool) (vchSig : List UInt8) (flags : UInt32) :
    Except ScriptError Unit :=
  if vchSig.length = 0 then .ok ()
  else if flags &&& (SCRIPT_VERIFY_DERSIG ||| SCRIPT_VERIFY_LOW_S ||| SCRIPT_VERIFY_STRICTENC) ≠ 0 ∧
      IsValidSignatureEncoding vchSig true ≠ some true then .error .SCRIPT_ERR_SIG_DER
  else if flags &&& SCRIPT_VERIFY_LOW_S ≠ 0 then IsLowDERSignature CheckLowS vchSig true
  else if flags &&& SCRIPT_VERIFY_STRICTENC ≠ 0 ∧ !IsDefinedHashtypeSignature vchSig then
    .error .SCRIPT_ERR_SIG_HASHTYPE
  else .ok ()

/-! ## The grammar -/

/-- The bytes of a strict DER integer: not empty, the sign bit of the first byte clear, and a
leading zero byte only before a byte with its sign bit set. -/
def IsMinimalInt : List UInt8 → Prop
  | [] => False
  | [b] => b &&& 0x80 = 0
  | b :: c :: _ => b &&& 0x80 = 0 ∧ (b = 0 → c &&& 0x80 ≠ 0)

instance : DecidablePred IsMinimalInt
  | [] => isFalse id
  | [b] => inferInstanceAs (Decidable (b &&& 0x80 = 0))
  | b :: c :: _ => inferInstanceAs (Decidable (b &&& 0x80 = 0 ∧ (b = 0 → c &&& 0x80 ≠ 0)))

/-- `0x30 L 0x02 lenR R 0x02 lenS S`, with the lengths right, both integers minimal, and one hash
type byte after it when `haveHashType`. -/
def IsDERGrammar (sig : List UInt8) (haveHashType : Bool) : Prop :=
  ∃ (L lenR lenS : UInt8) (R S H : List UInt8),
    sig = [0x30, L, 0x02, lenR] ++ R ++ [0x02, lenS] ++ S ++ H ∧
    lenR.toNat = R.length ∧ lenS.toNat = S.length ∧ L.toNat = lenR.toNat + lenS.toNat + 4 ∧
    H.length = (if haveHashType then 1 else 0) ∧ IsMinimalInt R ∧ IsMinimalInt S

/-! ## No read past the end -/

/-- `checkInteger` reads at most the tag, the length byte and the integer's own bytes. -/
theorem checkInteger_isSome {sig : List UInt8} {pos len : ℕ} (h : pos + 1 + len < sig.length) :
    (checkInteger sig pos len).isSome := by
  unfold checkInteger
  rw [List.getElem?_eq_getElem (by omega), Option.bind_eq_bind, Option.bind_some]
  split_ifs with htag hlen
  · rfl
  · rfl
  rw [List.getElem?_eq_getElem (by omega), Option.bind_some]
  split_ifs with hsign hpad
  · rfl
  · rw [List.getElem?_eq_getElem (by omega)]
    rfl
  · rfl

/-- Every index `IsValidSignatureEncoding` reads lies within the signature: each read is guarded
by a size check made before it. -/
theorem IsValidSignatureEncoding_isSome (sig : List UInt8) (haveHashType : Bool) :
    (IsValidSignatureEncoding sig haveHashType).isSome := by
  have hk : 6 ≤ if haveHashType then 7 else 6 := by split <;> omega
  unfold IsValidSignatureEncoding
  generalize (if haveHashType then 7 else 6) = k at hk ⊢
  generalize (if haveHashType then 3 else 2) = k'
  split_ifs with h9 h73
  · rfl
  · rfl
  rw [List.getElem?_eq_getElem (by omega), Option.bind_eq_bind, Option.bind_some]
  split_ifs with h0
  · rfl
  rw [List.getElem?_eq_getElem (by omega), Option.bind_some]
  split_ifs with h1
  · rfl
  rw [List.getElem?_eq_getElem (by omega), Option.bind_some]
  dsimp only
  split_ifs with h5
  · rfl
  rw [List.getElem?_eq_getElem (by omega), Option.bind_some]
  split_ifs with hlen
  · rfl
  -- both integers end before the hash type byte
  obtain ⟨okR, hR⟩ := Option.isSome_iff_exists.mp
    (@checkInteger_isSome sig 2 sig[3].toNat (by omega))
  simp only [hR, Option.bind_eq_bind, Option.bind_some]
  split_ifs with hokR
  · rfl
  exact checkInteger_isSome (by omega)

/-! ## The checks along the grammar -/

/-- `checkInteger` on an integer `X` laid out at `pos`, its tag and length byte before it: it
passes exactly a tag `0x02` and a minimal `X`, whatever follows. By cases on the first two bytes
of `X`, the ones it reads. -/
theorem checkInteger_eq (A X B : List UInt8) (tag l : UInt8) :
    checkInteger (A ++ tag :: l :: (X ++ B)) A.length X.length =
      some (decide (tag = 0x02 ∧ IsMinimalInt X)) := by
  by_cases ht : tag = 0x02
  swap
  · simp [checkInteger, ht]
  cases X with
  | nil => simp [checkInteger, ht, IsMinimalInt]
  | cons b X =>
    cases X with
    | nil =>
      by_cases hb : b &&& 0x80 = 0 <;> simp [checkInteger, ht, hb, IsMinimalInt]
    | cons c X =>
      by_cases hb : b &&& 0x80 = 0 <;> by_cases hb0 : b = 0 <;>
        simp [checkInteger, ht, hb, hb0, IsMinimalInt]

/-- A check that fails with `false` in front of a result that is a decision. -/
theorem ite_some_false_some_decide {c P : Prop} [Decidable c] [Decidable P] :
    (if c then some false else some (decide P)) = some (decide (¬c ∧ P)) := by
  by_cases hc : c <;> simp [hc]

/-- The checks on a signature split along the grammar's fields, with the two length bytes right:
`IsValidSignatureEncoding` then tests the size, the header byte, the total length, the size of
the tail and the two integers, and nothing else. -/
theorem IsValidSignatureEncoding_decomposed {sig : List UInt8} {b0 L b2 lenR t lenS : UInt8}
    {R S H : List UInt8} (haveHashType : Bool)
    (hsig : sig = [b0, L, b2, lenR] ++ R ++ [t, lenS] ++ S ++ H)
    (hR : lenR.toNat = R.length) (hS : lenS.toNat = S.length) :
    IsValidSignatureEncoding sig haveHashType =
      some (decide (9 ≤ sig.length ∧ sig.length ≤ 73 ∧ b0 = 0x30 ∧
        L.toNat = sig.length - (if haveHashType then 3 else 2) ∧
        H.length = (if haveHashType then 1 else 0) ∧
        b2 = 0x02 ∧ IsMinimalInt R ∧ t = 0x02 ∧ IsMinimalInt S)) := by
  have hn : sig.length = R.length + S.length + H.length + 6 := by
    rw [hsig]
    simp only [List.length_append, List.length_cons, List.length_nil]
    omega
  -- the reads of the header and of the second length byte
  have h0 : sig[0]? = some b0 := by simp [hsig]
  have h1 : sig[1]? = some L := by simp [hsig]
  have h3 : sig[3]? = some lenR := by simp [hsig]
  have h5 : sig[5 + lenR.toNat]? = some lenS := by
    rw [hsig, hR, show 5 + R.length = R.length + 1 + 4 by omega]
    simp
  -- the two integers, at `2` and at `lenR + 4`
  have cR : checkInteger sig 2 lenR.toNat = some (decide (b2 = 0x02 ∧ IsMinimalInt R)) := by
    have := checkInteger_eq [b0, L] R ([t, lenS] ++ S ++ H) b2 lenR
    rw [hsig, hR]
    simpa using this
  have cS : checkInteger sig (lenR.toNat + 4) lenS.toNat =
      some (decide (t = 0x02 ∧ IsMinimalInt S)) := by
    have := checkInteger_eq ([b0, L, b2, lenR] ++ R) S H t lenS
    rw [hsig, hR, hS]
    simp only [List.length_append, List.length_cons, List.length_nil] at this
    simpa [Nat.add_comm] using this
  have hk : lenR.toNat + lenS.toNat + (if haveHashType then 7 else 6) = sig.length ↔
      H.length = (if haveHashType then 1 else 0) := by
    split <;> omega
  have hfive : ¬(5 + lenR.toNat ≥ sig.length) := by omega
  unfold IsValidSignatureEncoding
  simp only [h0, h1, h3, h5, cR, cS, Option.bind_eq_bind, Option.bind_some, if_neg hfive]
  simp only [Bool.not_eq_true', decide_eq_false_iff_not, ite_some_false_some_decide,
    Option.some.injEq, decide_eq_decide]
  simp only [not_lt, gt_iff_lt, ne_eq, not_not, hk, and_assoc]

/-! ## The grammar, exactly -/

/-- A check that fails with `false` has passed in a run that returns `true`. -/
theorem eq_some_true_of_ite {c : Prop} [Decidable c] {x : Option Bool}
    (h : (if c then some false else x) = some true) : ¬c ∧ x = some true := by
  by_cases hc : c <;> simp_all

variable {sig : List UInt8} {haveHashType : Bool}

/-- The lengths an accepted signature has passed: the size bounds, the second length byte inside
the signature, and the two lengths adding up. -/
theorem lengths_of_IsValidSignatureEncoding
    (h : IsValidSignatureEncoding sig haveHashType = some true) :
    9 ≤ sig.length ∧ sig.length ≤ 73 ∧ ∃ b3, sig[3]? = some b3 ∧ 5 + b3.toNat < sig.length ∧
      ∃ b5, sig[5 + b3.toNat]? = some b5 ∧
        b3.toNat + b5.toNat + (if haveHashType then 7 else 6) = sig.length := by
  unfold IsValidSignatureEncoding at h
  obtain ⟨h9, h⟩ := eq_some_true_of_ite h
  obtain ⟨h73, h⟩ := eq_some_true_of_ite h
  obtain ⟨b0, -, h⟩ := Option.bind_eq_some_iff.mp h
  obtain ⟨-, h⟩ := eq_some_true_of_ite h
  obtain ⟨b1, -, h⟩ := Option.bind_eq_some_iff.mp h
  obtain ⟨-, h⟩ := eq_some_true_of_ite h
  obtain ⟨b3, hb3, h⟩ := Option.bind_eq_some_iff.mp h
  obtain ⟨hfive, h⟩ := eq_some_true_of_ite h
  obtain ⟨b5, hb5, h⟩ := Option.bind_eq_some_iff.mp h
  obtain ⟨hsum, -⟩ := eq_some_true_of_ite h
  exact ⟨by omega, by omega, b3, hb3, by omega, b5, hb5, by omega⟩

/-- Completeness: a signature of the grammar with `9` to `73` bytes passes. -/
theorem IsValidSignatureEncoding_of_grammar (hg : IsDERGrammar sig haveHashType)
    (h9 : 9 ≤ sig.length) (h73 : sig.length ≤ 73) :
    IsValidSignatureEncoding sig haveHashType = some true := by
  obtain ⟨L, lenR, lenS, R, S, H, hsig, hR, hS, hL, hH, hRm, hSm⟩ := hg
  have hn : sig.length = R.length + S.length + H.length + 6 := by
    rw [hsig]
    simp only [List.length_append, List.length_cons, List.length_nil]
    omega
  rw [IsValidSignatureEncoding_decomposed haveHashType hsig hR hS, decide_eq_true]
  refine ⟨h9, h73, rfl, ?_, hH, rfl, hRm, rfl, hSm⟩
  cases haveHashType <;> simp only [Bool.false_eq_true, if_true, if_false] at hH ⊢ <;> omega

/-- Soundness: a signature that passes has the grammar and `9` to `73` bytes. The signature is
split along the two length bytes, which the checks have placed inside it, and the checks are then
read off `IsValidSignatureEncoding_decomposed`. -/
theorem grammar_of_IsValidSignatureEncoding
    (h : IsValidSignatureEncoding sig haveHashType = some true) :
    IsDERGrammar sig haveHashType ∧ 9 ≤ sig.length ∧ sig.length ≤ 73 := by
  obtain ⟨h9, h73, b3, hb3, hfive, b5, hb5, hsum⟩ := lengths_of_IsValidSignatureEncoding h
  -- the header
  obtain ⟨b0, L, b2, rest, rfl⟩ : ∃ b0 L b2 rest, sig = b0 :: L :: b2 :: b3 :: rest := by
    match sig, hb3 with
    | b0 :: L :: b2 :: b3' :: rest, hb3 =>
      simp only [List.getElem?_cons_succ, List.getElem?_cons_zero, Option.some.injEq] at hb3
      exact ⟨b0, L, b2, rest, by rw [hb3]⟩
  simp only [List.length_cons] at h9 h73 hfive hsum
  -- `R`, then the tag and the length byte of `S`
  have hrest : rest = rest.take b3.toNat ++ rest.drop b3.toNat := (List.take_append_drop _ _).symm
  obtain ⟨t, l, tail, htail⟩ : ∃ t l tail, rest.drop b3.toNat = t :: l :: tail := by
    match hd : rest.drop b3.toNat with
    | t :: l :: tail => exact ⟨t, l, tail, rfl⟩
    | [] | [_] =>
      have := congrArg List.length hd
      simp only [List.length_drop, List.length_nil, List.length_cons] at this
      omega
  have hRlen : (rest.take b3.toNat).length = b3.toNat := by simp; omega
  have hl : l = b5 := by
    rw [hrest, htail] at hb5
    simp only [List.getElem?_cons_succ, show 5 + b3.toNat = b3.toNat + 1 + 4 by omega] at hb5
    rw [List.getElem?_append_right (by omega), hRlen] at hb5
    simpa using hb5
  subst hl
  have htaillen : tail.length = l.toNat + (if haveHashType then 1 else 0) := by
    have := congrArg List.length htail
    simp only [List.length_drop, List.length_cons] at this
    cases haveHashType <;> simp only [Bool.false_eq_true, if_true, if_false] at hsum ⊢ <;> omega
  -- `S` and the hash type
  have hsig : b0 :: L :: b2 :: b3 :: rest = [b0, L, b2, b3] ++ rest.take b3.toNat ++ [t, l] ++
      tail.take l.toNat ++ tail.drop l.toNat := by
    conv_lhs => rw [hrest, htail, ← List.take_append_drop l.toNat tail]
    simp
  have hSlen : (tail.take l.toNat).length = l.toNat := by simp; omega
  have hv := h
  rw [IsValidSignatureEncoding_decomposed haveHashType hsig hRlen.symm hSlen.symm,
    Option.some.injEq, decide_eq_true_eq] at hv
  obtain ⟨-, -, hb0, hL, hH, hb2, hRm, ht, hSm⟩ := hv
  subst hb0 hb2 ht
  refine ⟨⟨L, b3, l, _, _, _, hsig, hRlen.symm, hSlen.symm, ?_, hH, hRm, hSm⟩, h9, h73⟩
  simp only [List.length_cons] at hL
  cases haveHashType <;> simp only [Bool.false_eq_true, if_true, if_false] at hL hsum <;> omega

/-- A strict DER signature of `73` bytes, with a `34`-byte `R` and a `33`-byte `S`. -/
def derSignature73 : List UInt8 :=
  [0x30, 71, 0x02, 34] ++ 0x00 :: 0x80 :: List.replicate 32 0x01 ++ [0x02, 33] ++
    0x01 :: List.replicate 32 0x01

/-- Under any of `SCRIPT_VERIFY_DERSIG`, `SCRIPT_VERIFY_LOW_S` and `SCRIPT_VERIFY_STRICTENC`, a
non-empty signature the interpreter accepts has the DER grammar with a hash type byte. -/
theorem CheckSignatureEncoding_grammar {CheckLowS : List UInt8 → Bool} {vchSig : List UInt8}
    {flags : UInt32} (hne : vchSig ≠ [])
    (hflags : flags &&& (SCRIPT_VERIFY_DERSIG ||| SCRIPT_VERIFY_LOW_S ||| SCRIPT_VERIFY_STRICTENC) ≠ 0)
    (h : CheckSignatureEncoding CheckLowS vchSig flags = .ok ()) :
    IsDERGrammar vchSig true ∧ 9 ≤ vchSig.length ∧ vchSig.length ≤ 73 := by
  apply grammar_of_IsValidSignatureEncoding
  by_contra hbad
  rw [CheckSignatureEncoding, if_neg (by simpa using hne), if_pos ⟨hflags, hbad⟩] at h
  cases h

end HydraNode
