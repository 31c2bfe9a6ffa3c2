import Mathlib

/-!
# SHA-256

`CSHA256` (`crypto/sha256.cpp`) hashes a stream: `Write` keeps the bytes of an unfinished block
in a buffer and runs `Transform` on every block of 64 bytes as soon as it is complete, and
`Finalize` writes the padding and the length in bits and reads out the state. `CHash256`
(`hash.h`) is SHA-256 applied twice, and `Hash` hashes a byte string with it.

How the input is cut into calls of `Write` does not matter: from the state that has read `m`,
writing `m'` gives the state that has read `m ++ m'` (`Write_read`). A hash is therefore a
function of the bytes written (`Finalize_foldl_Write`): `SHA256`, the compression of the padded
message block by block.

Words are natural numbers below `2 ^ 32`, each operation reduced modulo `2 ^ 32` where the
source's `uint32_t` wraps; the state is the list of its eight words. The source unrolls the
64 rounds of `Transform` and renames the registers from one round to the next instead of moving
them; a round here moves them (`Round`), and the message schedule is a window of the last 16
words. The byte counter `bytes` is a `uint64_t`, here a natural number: the two differ from
`2 ^ 64` bytes on. The length in bits is reduced modulo `2 ^ 64`, as the shift of the source
does.

## Main definitions

* `Transform`, `CSHA256.Write`, `CSHA256.Finalize`, `CHash256`, `Hash`
* `SHA256` — the compression of the padded message, block by block

## Main results

* `Write_read`, `Write_foldl` — writing in pieces is writing the whole
* `Finalize_foldl_Write`, `CHash256_eq` — the hash is SHA-256 of the bytes written
-/

namespace HydraNode

namespace Sha256

/-! ## The compression function -/

/-- `x >> n | x << (32 - n)` on a `uint32_t`. -/
def rotr (x n : ℕ) : ℕ := (x >>> n ||| x <<< (32 - n)) % 2 ^ 32

/-- `Ch`. -/
def Ch (x y z : ℕ) : ℕ := z ^^^ (x &&& (y ^^^ z))

/-- `Maj`. -/
def Maj (x y z : ℕ) : ℕ := (x &&& y) ||| (z &&& (x ||| y))

/-- `Sigma0`. -/
def Sigma0 (x : ℕ) : ℕ := rotr x 2 ^^^ rotr x 13 ^^^ rotr x 22

/-- `Sigma1`. -/
def Sigma1 (x : ℕ) : ℕ := rotr x 6 ^^^ rotr x 11 ^^^ rotr x 25

/-- `sigma0`. -/
def sigma0 (x : ℕ) : ℕ := rotr x 7 ^^^ rotr x 18 ^^^ (x >>> 3)

/-- `sigma1`. -/
def sigma1 (x : ℕ) : ℕ := rotr x 17 ^^^ rotr x 19 ^^^ (x >>> 10)

/-- The registers `a`, ..., `h`. -/
structure Regs where
  a : ℕ
  b : ℕ
  c : ℕ
  d : ℕ
  e : ℕ
  f : ℕ
  g : ℕ
  h : ℕ
  deriving DecidableEq, Repr

/-- `Round(a, b, c, d, e, f, g, h, k)` adds `t1` to `d` and sets `h` to `t1 + t2`; the next round
of the source passes the registers shifted by one, which here is the move to
`(h, a, b, c, d, e, f, g)`. -/
def Round (r : Regs) (k : ℕ) : Regs :=
  let t1 := (r.h + Sigma1 r.e + Ch r.e r.f r.g + k) % 2 ^ 32
  let t2 := (Sigma0 r.a + Maj r.a r.b r.c) % 2 ^ 32
  ⟨(t1 + t2) % 2 ^ 32, r.a, r.b, r.c, (r.d + t1) % 2 ^ 32, r.e, r.f, r.g⟩

/-- The round constants of `Transform`, in order. -/
def K : List ℕ := [
  0x428a2f98, 0x71374491, 0xb5c0fbcf, 0xe9b5dba5, 0x3956c25b, 0x59f111f1, 0x923f82a4, 0xab1c5ed5,
  0xd807aa98, 0x12835b01, 0x243185be, 0x550c7dc3, 0x72be5d74, 0x80deb1fe, 0x9bdc06a7, 0xc19bf174,
  0xe49b69c1, 0xefbe4786, 0x0fc19dc6, 0x240ca1cc, 0x2de92c6f, 0x4a7484aa, 0x5cb0a9dc, 0x76f988da,
  0x983e5152, 0xa831c66d, 0xb00327c8, 0xbf597fc7, 0xc6e00bf3, 0xd5a79147, 0x06ca6351, 0x14292967,
  0x27b70a85, 0x2e1b2138, 0x4d2c6dfc, 0x53380d13, 0x650a7354, 0x766a0abb, 0x81c2c92e, 0x92722c85,
  0xa2bfe8a1, 0xa81a664b, 0xc24b8b70, 0xc76c51a3, 0xd192e819, 0xd6990624, 0xf40e3585, 0x106aa070,
  0x19a4c116, 0x1e376c08, 0x2748774c, 0x34b0bcb5, 0x391c0cb3, 0x4ed8aa4a, 0x5b9cca4f, 0x682e6ff3,
  0x748f82ee, 0x78a5636f, 0x84c87814, 0x8cc70208, 0x90befffa, 0xa4506ceb, 0xbef9a3f7, 0xc67178f2]

/-- The next word of the schedule from the last 16: `w0 += sigma1(w14) + w9 + sigma0(w1)`. -/
def nextWord (w : List ℕ) : ℕ :=
  (w.getD 0 0 + sigma1 (w.getD 14 0) + w.getD 9 0 + sigma0 (w.getD 1 0)) % 2 ^ 32

/-- The rounds, each with its constant and the first word of the window, which then moves on by
one word. -/
def rounds : List ℕ → List ℕ → Regs → Regs
  | [], _, r => r
  | k :: ks, w, r => rounds ks (w.tail ++ [nextWord w]) (Round r ((k + w.getD 0 0) % 2 ^ 32))

/-- `ReadBE32`. -/
def ReadBE32 (b : List UInt8) : ℕ := b.foldl (fun acc x => acc * 256 + x.toNat) 0

/-- The 16 words of a block. -/
def blockWords (chunk : List UInt8) : List ℕ :=
  (List.range 16).map fun i => ReadBE32 ((chunk.drop (4 * i)).take 4)

/-- One block of `Transform`: the rounds, then `s[i] += ...`. -/
def transformBlock (s : Regs) (chunk : List UInt8) : Regs :=
  let r := rounds K (blockWords chunk) s
  ⟨(s.a + r.a) % 2 ^ 32, (s.b + r.b) % 2 ^ 32, (s.c + r.c) % 2 ^ 32, (s.d + r.d) % 2 ^ 32,
    (s.e + r.e) % 2 ^ 32, (s.f + r.f) % 2 ^ 32, (s.g + r.g) % 2 ^ 32, (s.h + r.h) % 2 ^ 32⟩

/-- `Transform(s, chunk, blocks)`: `blocks` blocks of 64 bytes from `chunk`. -/
def Transform (s : Regs) (chunk : List UInt8) : ℕ → Regs
  | 0 => s
  | blocks + 1 => Transform (transformBlock s (chunk.take 64)) (chunk.drop 64) blocks

/-- `Initialize`. -/
def Initialize : Regs :=
  ⟨0x6a09e667, 0xbb67ae85, 0x3c6ef372, 0xa54ff53a, 0x510e527f, 0x9b05688c, 0x1f83d9ab,
    0x5be0cd19⟩

/-! ## The stream -/

/-- `CSHA256`: the state, the bytes of the unfinished block, and the count of bytes written. -/
structure CSHA256 where
  s : Regs
  buf : List UInt8
  bytes : ℕ

/-- `CSHA256()` and `Reset()`. -/
def CSHA256.init : CSHA256 := ⟨Initialize, [], 0⟩

/-- The end of `CSHA256::Write`: the whole blocks of the data processed, and what remains
added to the buffer. -/
def CSHA256.writeBlocks (st : CSHA256) (data : List UInt8) : CSHA256 :=
  let blocks := data.length / 64
  ⟨Transform st.s data blocks, st.buf ++ data.drop (64 * blocks),
    st.bytes + 64 * blocks + (data.drop (64 * blocks)).length⟩

/-- `CSHA256::Write`: if the data completes the buffered block, fill the buffer and process it
first. -/
def CSHA256.Write (st : CSHA256) (data : List UInt8) : CSHA256 :=
  let bufsize := st.bytes % 64
  if bufsize ≠ 0 ∧ bufsize + data.length ≥ 64 then
    CSHA256.writeBlocks ⟨transformBlock st.s (st.buf ++ data.take (64 - bufsize)), [],
      st.bytes + (64 - bufsize)⟩ (data.drop (64 - bufsize))
  else st.writeBlocks data

/-- `WriteBE32`. -/
def WriteBE32 (x : ℕ) : List UInt8 :=
  [(x / 2 ^ 24).toUInt8, (x / 2 ^ 16).toUInt8, (x / 2 ^ 8).toUInt8, x.toUInt8]

/-- `WriteBE64`. -/
def WriteBE64 (x : ℕ) : List UInt8 := (List.range 8).map fun i => (x / 2 ^ (8 * (7 - i))).toUInt8

/-- `CSHA256::Finalize`: the byte `0x80`, zeros up to 56 modulo 64, the length in bits, and
the state's words. -/
def CSHA256.Finalize (st : CSHA256) : List UInt8 :=
  let sizedesc := WriteBE64 ((st.bytes <<< 3) % 2 ^ 64)
  let st := st.Write (0x80 :: List.replicate ((119 - st.bytes % 64) % 64) 0)
  let st := st.Write sizedesc
  [st.s.a, st.s.b, st.s.c, st.s.d, st.s.e, st.s.f, st.s.g, st.s.h].flatMap WriteBE32

/-- `CHash256`: SHA-256 of SHA-256, from `Write` of the data to `Finalize`. -/
def CHash256 (data : List UInt8) : List UInt8 :=
  (CSHA256.init.Write ((CSHA256.init.Write data).Finalize)).Finalize

/-- `Hash(pbegin, pend)`: `CHash256` of the bytes, read as the 32 bytes of a `uint256`. -/
def Hash (b : List UInt8) : Vector UInt8 32 := Vector.ofFn fun i => (CHash256 b).getD i.val 0

/-! ## Blocks -/

@[simp] theorem Transform_zero (s : Regs) (chunk : List UInt8) : Transform s chunk 0 = s := rfl

theorem Transform_succ (s : Regs) (chunk : List UInt8) (n : ℕ) :
    Transform s chunk (n + 1) = Transform (transformBlock s (chunk.take 64)) (chunk.drop 64) n :=
  rfl

theorem Transform_add (s : Regs) (chunk : List UInt8) (a b : ℕ) :
    Transform s chunk (a + b) = Transform (Transform s chunk a) (chunk.drop (64 * a)) b := by
  induction a generalizing s chunk with
  | zero => simp
  | succ a ih =>
    rw [Nat.add_right_comm, Transform_succ, ih, Transform_succ, List.drop_drop]
    congr 2
    ring

/-- `Transform` reads only the blocks it processes. -/
theorem Transform_append {n : ℕ} {chunk : List UInt8} (h : 64 * n ≤ chunk.length)
    (s : Regs) (rest : List UInt8) : Transform s (chunk ++ rest) n = Transform s chunk n := by
  induction n generalizing s chunk with
  | zero => rfl
  | succ n ih =>
    rw [Transform_succ, Transform_succ, List.take_append_of_le_length (by omega),
      List.drop_append_of_le_length (by omega), ih (by rw [List.length_drop]; omega)]

/-! ## Writing in pieces -/

/-- The state that has read `m`: its whole blocks processed and the rest buffered. -/
def read (m : List UInt8) : CSHA256 :=
  ⟨Transform Initialize m (m.length / 64), m.drop (64 * (m.length / 64)), m.length⟩

theorem init_eq_read : CSHA256.init = read [] := rfl

theorem length_buf_read (m : List UInt8) : (read m).buf.length = m.length % 64 := by
  simp only [read, List.length_drop]
  omega

/-- Writing `m'` after `m` is reading `m ++ m'`. -/
theorem Write_read (m m' : List UInt8) : (read m).Write m' = read (m ++ m') := by
  set q := m.length / 64
  set r := m.length % 64
  have hm : m.length = 64 * q + r := (Nat.div_add_mod _ _).symm
  have hr : r < 64 := Nat.mod_lt _ (by norm_num)
  have hpre : Transform Initialize (m ++ m') q = Transform Initialize m q :=
    Transform_append (by omega) _ _
  have hbuf : (m ++ m').drop (64 * q) = m.drop (64 * q) ++ m' :=
    List.drop_append_of_le_length (by omega)
  have hlen : (m.drop (64 * q)).length = r := by rw [List.length_drop]; omega
  have hbytes : (read m).bytes % 64 = r := rfl
  unfold CSHA256.Write
  rw [hbytes]
  by_cases hfill : r ≠ 0 ∧ r + m'.length ≥ 64
  · -- the buffered block is completed and processed first
    rw [if_pos hfill]
    set b := (m'.length - (64 - r)) / 64
    have htot : (m ++ m').length / 64 = q + 1 + b := by rw [List.length_append]; omega
    have hblock : (m.drop (64 * q) ++ m').take 64 = m.drop (64 * q) ++ m'.take (64 - r) := by
      rw [List.take_append, hlen, List.take_of_length_le (by omega)]
    have hrest : (m ++ m').drop (64 * (q + 1)) = m'.drop (64 - r) := by
      rw [show 64 * (q + 1) = m.length + (64 - r) by omega, ← List.drop_drop, List.drop_left]
    have hb : (m'.drop (64 - r)).length / 64 = b := by rw [List.length_drop]
    simp only [CSHA256.writeBlocks, read, CSHA256.mk.injEq, hb]
    refine ⟨?_, ?_, ?_⟩
    · rw [htot, Transform_add, Transform_add _ _ q 1, hpre, hbuf, Transform_succ, Transform_zero,
        hblock, hrest]
    · rw [htot, List.nil_append, ← hrest, List.drop_drop]
      congr 1
      ring
    · rw [List.length_drop, List.length_drop, List.length_append]
      omega
  · -- the data goes on from the buffer: whole blocks only if the buffer was empty
    rw [if_neg hfill]
    simp only [CSHA256.writeBlocks, read, CSHA256.mk.injEq]
    by_cases hr0 : r = 0
    · have htot : (m ++ m').length / 64 = q + m'.length / 64 := by rw [List.length_append]; omega
      have hnil : m.drop (64 * q) = [] := List.drop_eq_nil_of_le (by omega)
      refine ⟨?_, ?_, ?_⟩
      · rw [htot, Transform_add, hpre, hbuf, hnil, List.nil_append]
      · rw [hnil, List.nil_append, htot, Nat.mul_add, ← List.drop_drop, hbuf, hnil,
          List.nil_append]
      · rw [List.length_drop, List.length_append]
        omega
    · have hzero : m'.length / 64 = 0 := by omega
      have htot : (m ++ m').length / 64 = q := by rw [List.length_append]; omega
      refine ⟨?_, ?_, ?_⟩
      · rw [hzero, Transform_zero, htot, hpre]
      · rw [hzero, Nat.mul_zero, List.drop_zero, htot, hbuf]
      · rw [hzero, Nat.mul_zero, List.drop_zero, List.length_append]
        omega

/-- A run of `Write`s reads the concatenation of the pieces. -/
theorem Write_foldl (m : List UInt8) (pieces : List (List UInt8)) :
    pieces.foldl CSHA256.Write (read m) = read (m ++ pieces.flatten) := by
  induction pieces generalizing m with
  | nil => simp
  | cons p ps ih => rw [List.foldl_cons, Write_read, ih, List.flatten_cons, List.append_assoc]

/-! ## The hash -/

/-- The message with its padding: `0x80`, zeros up to 56 modulo 64, and the length in bits. -/
def padded (m : List UInt8) : List UInt8 :=
  m ++ ((0x80 : UInt8) :: List.replicate ((119 - m.length % 64) % 64) 0) ++
    WriteBE64 ((m.length <<< 3) % 2 ^ 64)

/-- The hash read out of the state. -/
def digest (s : Regs) : List UInt8 := [s.a, s.b, s.c, s.d, s.e, s.f, s.g, s.h].flatMap WriteBE32

/-- SHA-256 of a message: the compression of its padded blocks. -/
def SHA256 (m : List UInt8) : List UInt8 :=
  digest (Transform Initialize (padded m) ((padded m).length / 64))

theorem length_WriteBE64 (x : ℕ) : (WriteBE64 x).length = 8 := by simp [WriteBE64]

/-- The padded message is made of whole blocks. -/
theorem length_padded_mod (m : List UInt8) : (padded m).length % 64 = 0 := by
  simp only [padded, List.length_append, List.length_cons, List.length_replicate,
    length_WriteBE64]
  omega

theorem Finalize_read (m : List UInt8) : (read m).Finalize = SHA256 m := by
  unfold CSHA256.Finalize
  dsimp only
  rw [show (read m).bytes = m.length from rfl, Write_read, Write_read]
  rfl

/-- `CHash256` is SHA-256 of SHA-256. -/
theorem CHash256_eq (data : List UInt8) : CHash256 data = SHA256 (SHA256 data) := by
  rw [CHash256, init_eq_read, Write_read, List.nil_append, Finalize_read, Write_read,
    List.nil_append, Finalize_read]

/-- However the input is cut into calls of `Write`, `Finalize` returns SHA-256 of all of it; and
`CHash256`, which writes the digest into a second `CSHA256`, is SHA-256 applied twice. -/
theorem Finalize_foldl_Write :
    (∀ pieces : List (List UInt8),
      (pieces.foldl CSHA256.Write CSHA256.init).Finalize = SHA256 pieces.flatten) ∧
    ∀ data : List UInt8, CHash256 data = SHA256 (SHA256 data) := by
  refine ⟨fun pieces => ?_, CHash256_eq⟩
  rw [init_eq_read, Write_foldl, List.nil_append, Finalize_read]

example : (CHash256 [0x61, 0x62, 0x63]).take 4 = [0x4f, 0x8b, 0x42, 0xc2] := by decide +kernel

end Sha256

end HydraNode
