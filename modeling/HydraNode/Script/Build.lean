import HydraNode.Script.Num
import HydraNode.Qtum.TxConverter

/-!
# Building scripts and reading them back

A script is built with `CScript::operator<<` from opcodes, byte vectors and `int64_t` numbers
(`script/script.h`): an opcode is its byte; a byte vector gets the shortest of the four length
prefixes (the length itself below `OP_PUSHDATA1`, then `OP_PUSHDATA1`, `OP_PUSHDATA2` and
`OP_PUSHDATA4` with one, two and four little-endian length bytes); `push_int64` writes `-1` and
`1` to `16` as `OP_1NEGATE` and `OP_1` to `OP_16`, `0` as `OP_0`, and every other number as the
byte vector `CScriptNum::serialize` makes of it.

`GetScriptOp` (`script/script.cpp`) reads the script back one opcode at a time. Every read that
succeeds takes at least one byte and stops at or before the end (`GetOp_advance`), so every loop
of the form `while (pc < end() && GetOp(pc, ...))` stops after at most as many reads as the script
has bytes. Here such loops are functions by well-founded recursion on the length of what is left
to read, with `GetOp_length_lt` as the decreasing measure: `GetOps`, which collects what is read,
and `CScript::IsPushOnly`, `CScript::HasValidOps` and `CScript::GetSigOpCount` of the source.

What a read returns depends only on the bytes it takes (`GetOp_append`). Hence a script built
from opcodes above `OP_PUSHDATA4`, byte vectors shorter than `2 ^ 32` and `int64_t` numbers reads
back, item by item, as the opcodes and data it was built from (`GetOps_buildScript`). The bound on
byte vectors is needed: `WriteLE32` keeps the low four bytes of the length, and a longer vector
reads back shorter.

## Main definitions

* `CScript.push_int64`, `ScriptItem`, `CScript.pushItem`, `buildScript`
* `GetOps`, `CScript.IsPushOnly`, `CScript.HasValidOps`, `CScript.GetSigOpCount`
* `pushOpcode`, `ScriptItem.parsed` — what reading an item back returns

## Main results

* `GetOp_advance` — every read takes at least a byte and stops at or before the end
* `GetOp_append` — bytes after a read do not change it
* `GetOp_pushItem`, `GetOps_buildScript` — a built script reads back as its items
* `CScript.IsPushOnly_eq`, `CScript.HasValidOps_eq`, `sigOpLoop_eq`, `CScript.Find_eq_count` —
  each loop computes a function of the opcodes `GetOps` reads
* `length_GetOps_le` — a loop reads at most as many opcodes as the script has bytes
* `buildScript_GetOps_roundtrip`
-/

namespace HydraNode

/-! ## More opcodes -/

def OP_CHECKSIGVERIFY : UInt8 := 0xad
def OP_CHECKMULTISIG : UInt8 := 0xae
def OP_CHECKMULTISIGVERIFY : UInt8 := 0xaf
def OP_NOP10 : UInt8 := 0xb9
def OP_INVALIDOPCODE : UInt8 := 0xff

/-- `MAX_OPCODE`: Qtum's contract opcodes lie above it. -/
def MAX_OPCODE : UInt8 := OP_NOP10

def MAX_PUBKEYS_PER_MULTISIG : ℕ := 20

/-- `CScript::DecodeOP_N`, for `OP_0` and `OP_1` to `OP_16`. -/
def DecodeOP_N (opcode : UInt8) : ℕ :=
  if opcode = OP_0 then 0 else opcode.toNat - (OP_1.toNat - 1)

/-! ## Building -/

/-- `CScript::push_int64`. `push_back(n + (OP_1 - 1))` stores the low byte of `n + 80`. -/
def CScript.push_int64 (s : CScript) (n : ℤ) : CScript :=
  if n = -1 ∨ (1 ≤ n ∧ n ≤ 16) then s ++ [UInt8.ofNat (n + (OP_1.toNat - 1 : ℕ)).toNat]
  else if n = 0 then s ++ [OP_0]
  else s.pushData (CScriptNum.serialize n)

/-- What `operator<<` appends: an opcode, a byte vector, or an `int64_t`. -/
inductive ScriptItem
  | op (opcode : UInt8)
  | data (b : List UInt8)
  | num (n : ℤ)
  deriving DecidableEq, Repr

/-- `s << item`. -/
def CScript.pushItem (s : CScript) : ScriptItem → CScript
  | .op opcode => s.pushOp opcode
  | .data b => s.pushData b
  | .num n => s.push_int64 n

/-- `CScript() << item₀ << item₁ << ...`. -/
def buildScript (items : List ScriptItem) : CScript := items.foldl CScript.pushItem []

/-! ## Reading -/

/-- The reads of a loop `while (pc < end() && GetOp(pc, opcode, vch))`: the opcodes and data read
from the start, and what is left where the loop stops, empty exactly when every read succeeded. -/
def GetOps (s : CScript) : List (UInt8 × valtype) × CScript :=
  match _h : GetOp s with
  | none => ([], s)
  | some (opcode, vch, rest) =>
    let r := GetOps rest
    ((opcode, vch) :: r.1, r.2)
termination_by s.length
decreasing_by exact GetOp_length_lt _h

/-- `CScript::IsPushOnly(pc)`: every opcode up to the end is a push or a small number. -/
def CScript.IsPushOnly (pc : CScript) : Bool :=
  match _h : GetOp pc with
  | none => pc.isEmpty
  | some (opcode, _, rest) => if OP_16 < opcode then false else CScript.IsPushOnly rest
termination_by pc.length
decreasing_by exact GetOp_length_lt _h

/-- `CScript::HasValidOps`: every opcode up to the end is at most `MAX_OPCODE` and pushes at most
`MAX_SCRIPT_ELEMENT_SIZE` bytes. -/
def CScript.HasValidOps (it : CScript) : Bool :=
  match _h : GetOp it with
  | none => it.isEmpty
  | some (opcode, item, rest) =>
    if MAX_OPCODE < opcode ∨ MAX_SCRIPT_ELEMENT_SIZE < item.length then false
    else CScript.HasValidOps rest
termination_by it.length
decreasing_by exact GetOp_length_lt _h

/-- The count `GetSigOpCount` adds for one opcode, given the opcode before it. -/
def sigOpsOf (fAccurate : Bool) (lastOpcode opcode : UInt8) : ℕ :=
  if opcode = OP_CHECKSIG ∨ opcode = OP_CHECKSIGVERIFY then 1
  else if opcode = OP_CHECKMULTISIG ∨ opcode = OP_CHECKMULTISIGVERIFY then
    if fAccurate = true ∧ OP_1 ≤ lastOpcode ∧ lastOpcode ≤ OP_16 then DecodeOP_N lastOpcode
    else MAX_PUBKEYS_PER_MULTISIG
  else 0

/-- The loop of `CScript::GetSigOpCount(fAccurate)`, which stops at the first failed read. The
count is at most `20` a byte, far below the `2 ^ 32` of its `unsigned int`. -/
def sigOpLoop (fAccurate : Bool) (n : ℕ) (lastOpcode : UInt8) (pc : CScript) : ℕ :=
  match _h : GetOp pc with
  | none => n
  | some (opcode, _, rest) => sigOpLoop fAccurate (n + sigOpsOf fAccurate lastOpcode opcode) opcode rest
termination_by pc.length
decreasing_by exact GetOp_length_lt _h

/-- `CScript::GetSigOpCount(fAccurate)`. -/
def CScript.GetSigOpCount (s : CScript) (fAccurate : Bool) : ℕ :=
  sigOpLoop fAccurate 0 OP_INVALIDOPCODE s

/-! ## What reading back should give -/

/-- The opcode `operator<<` writes before a byte vector. -/
def pushOpcode (b : List UInt8) : UInt8 :=
  if b.length < OP_PUSHDATA1.toNat then UInt8.ofNat b.length
  else if b.length ≤ 0xff then OP_PUSHDATA1
  else if b.length ≤ 0xffff then OP_PUSHDATA2
  else OP_PUSHDATA4

/-- The opcode and data a read of an item returns: an opcode with no data, a byte vector with
its push opcode, a small number as its `OP_N`, and any other number as the push of its
`CScriptNum` bytes. -/
def ScriptItem.parsed : ScriptItem → UInt8 × valtype
  | .op opcode => (opcode, [])
  | .data b => (pushOpcode b, b)
  | .num n =>
    if n = -1 ∨ (1 ≤ n ∧ n ≤ 16) then (UInt8.ofNat (n + (OP_1.toNat - 1 : ℕ)).toNat, [])
    else if n = 0 then (OP_0, [])
    else (pushOpcode (CScriptNum.serialize n), CScriptNum.serialize n)

/-- The items the reading side recognises: opcodes that push nothing, byte vectors whose length
fits the four bytes of `OP_PUSHDATA4`, and `int64_t` numbers. -/
def ScriptItem.Valid : ScriptItem → Prop
  | .op opcode => OP_PUSHDATA4 < opcode
  | .data b => b.length < 2 ^ 32
  | .num n => -2 ^ 63 ≤ n ∧ n < 2 ^ 63

/-! ## One read -/

/-- How many length bytes follow a push opcode. -/
def lenBytes (op : UInt8) : ℕ :=
  if op < OP_PUSHDATA1 then 0 else if op = OP_PUSHDATA1 then 1 else if op = OP_PUSHDATA2 then 2
  else 4

/-- `pushSize` in one piece: the length bytes are there, and the size is the opcode or their
little-endian value. -/
theorem pushSize_eq (op : UInt8) (r : CScript) :
    pushSize op r =
      if r.length < lenBytes op then none
      else some (if op < OP_PUSHDATA1 then op.toNat else readLE (r.take (lenBytes op)),
        r.drop (lenBytes op)) := by
  unfold pushSize lenBytes
  split_ifs <;> simp_all

/-- Bytes after a length prefix do not change it. -/
theorem pushSize_append {op : UInt8} {r r' : CScript} {n : ℕ} (h : pushSize op r = some (n, r'))
    (t : CScript) : pushSize op (r ++ t) = some (n, r' ++ t) := by
  rw [pushSize_eq] at h ⊢
  by_cases hl : r.length < lenBytes op
  · rw [if_pos hl] at h
    cases h
  rw [if_neg hl, Option.some.injEq, Prod.mk.injEq] at h
  obtain ⟨rfl, rfl⟩ := h
  rw [if_neg (by simp only [List.length_append]; omega), List.take_append_of_le_length (by omega),
    List.drop_append_of_le_length (by omega)]

/-- A length prefix takes at most the bytes that are there. -/
theorem pushSize_advance {op : UInt8} {r r' : CScript} {n : ℕ} (h : pushSize op r = some (n, r')) :
    ∃ j ≤ r.length, r' = r.drop j := by
  rw [pushSize_eq] at h
  by_cases hl : r.length < lenBytes op
  · rw [if_pos hl] at h
    cases h
  rw [if_neg hl, Option.some.injEq, Prod.mk.injEq] at h
  exact ⟨lenBytes op, by omega, h.2.symm⟩

/-- Bytes after a read do not change it: what a read returns depends only on the bytes it
takes. -/
theorem GetOp_append {s rest : CScript} {o : UInt8} {vch : valtype}
    (h : GetOp s = some (o, vch, rest)) (t : CScript) :
    GetOp (s ++ t) = some (o, vch, rest ++ t) := by
  match s, h with
  | op :: r, h =>
    simp only [GetOp] at h
    simp only [List.cons_append, GetOp]
    split_ifs at h ⊢ with hop
    · cases hp : pushSize op r with
      | none => simp [hp] at h
      | some p =>
        obtain ⟨n, r'⟩ := p
        simp only [hp] at h
        split_ifs at h with hn
        cases h
        simp only [pushSize_append hp t, List.length_append]
        rw [if_neg (by omega), List.take_append_of_le_length (by omega),
          List.drop_append_of_le_length (by omega)]
    · cases h
      rfl

/-- Every read that succeeds takes at least one byte and stops at or before the end of the
script: `pc` moves forward, and never past `end()`. -/
theorem GetOp_advance {s rest : CScript} {o : UInt8} {vch : valtype}
    (h : GetOp s = some (o, vch, rest)) : ∃ k, 0 < k ∧ k ≤ s.length ∧ rest = s.drop k := by
  match s, h with
  | op :: r, h =>
    simp only [GetOp] at h
    split_ifs at h with hop
    · cases hp : pushSize op r with
      | none => simp [hp] at h
      | some p =>
        obtain ⟨n, r'⟩ := p
        simp only [hp] at h
        split_ifs at h with hn
        cases h
        obtain ⟨j, hj, rfl⟩ := pushSize_advance hp
        refine ⟨1 + j + n, by omega, ?_, ?_⟩
        · simp only [List.length_drop, List.length_cons] at hn ⊢
          omega
        · rw [List.drop_drop, show 1 + j + n = (j + n) + 1 by omega, List.drop_succ_cons]
    · cases h
      exact ⟨1, Nat.one_pos, by simp, rfl⟩

/-- A read takes a prefix of the script, and reads that prefix alone the same way: with
`GetOp_append`, what a read returns depends exactly on the bytes it takes. -/
theorem exists_eq_append_of_GetOp {s rest : CScript} {o : UInt8} {vch : valtype}
    (h : GetOp s = some (o, vch, rest)) :
    ∃ pre, s = pre ++ rest ∧ GetOp pre = some (o, vch, []) := by
  match s, h with
  | op :: r, h =>
    simp only [GetOp] at h
    split_ifs at h with hop
    · cases hp : pushSize op r with
      | none => simp [hp] at h
      | some p =>
        obtain ⟨n, r'⟩ := p
        simp only [hp] at h
        split_ifs at h with hn
        simp only [Option.some.injEq, Prod.mk.injEq] at h
        obtain ⟨rfl, rfl, rfl⟩ := h
        rw [pushSize_eq] at hp
        by_cases hl : r.length < lenBytes op
        · rw [if_pos hl] at hp
          cases hp
        rw [if_neg hl, Option.some.injEq, Prod.mk.injEq] at hp
        obtain ⟨hsize, rfl⟩ := hp
        -- the prefix is the opcode, its length bytes and its data
        have hlen : lenBytes op + n ≤ r.length := by
          simp only [List.length_drop] at hn
          omega
        refine ⟨op :: r.take (lenBytes op + n), ?_, ?_⟩
        · rw [List.cons_append, List.drop_drop, List.take_append_drop]
        · simp only [GetOp, if_pos hop]
          rw [pushSize_eq, if_neg (by simp only [List.length_take]; omega), List.take_take,
            Nat.min_eq_left (Nat.le_add_right _ _), List.drop_take, hsize]
          simp only [Nat.add_sub_cancel_left, List.length_take, List.length_drop]
          rw [if_neg (by omega), List.take_take, Nat.min_self, List.drop_take_self]
    · simp only [Option.some.injEq, Prod.mk.injEq] at h
      obtain ⟨rfl, rfl, rfl⟩ := h
      exact ⟨[op], rfl, by simp [GetOp, hop]⟩

/-! ## The loops -/

theorem GetOps_of_none {s : CScript} (h : GetOp s = none) : GetOps s = ([], s) := by
  rw [GetOps]
  split <;> simp_all

theorem GetOps_of_some {s rest : CScript} {o : UInt8} {vch : valtype}
    (h : GetOp s = some (o, vch, rest)) :
    GetOps s = ((o, vch) :: (GetOps rest).1, (GetOps rest).2) := by
  rw [GetOps]
  split <;> simp_all

@[simp] theorem GetOps_nil : GetOps [] = ([], []) := GetOps_of_none rfl

/-- A loop reads at most as many opcodes as the script has bytes. -/
theorem length_GetOps_le (s : CScript) : (GetOps s).1.length ≤ s.length := by
  induction hs : s.length using Nat.strong_induction_on generalizing s with
  | _ n ih =>
    cases h : GetOp s with
    | none => simp [GetOps_of_none h]
    | some r =>
      obtain ⟨o, vch, rest⟩ := r
      have hlt := GetOp_length_lt h
      have := ih rest.length (by omega) rest rfl
      rw [GetOps_of_some h, List.length_cons]
      omega

/-- After a read that takes the whole of `s`, the loop goes on with what follows. -/
theorem GetOps_append_of_GetOp {s : CScript} {o : UInt8} {vch : valtype}
    (h : GetOp s = some (o, vch, [])) (t : CScript) :
    GetOps (s ++ t) = ((o, vch) :: (GetOps t).1, (GetOps t).2) :=
  GetOps_of_some (GetOp_append h t)

/-- `IsPushOnly` holds exactly when every read succeeds and reads at most `OP_16`. -/
theorem CScript.IsPushOnly_eq (s : CScript) :
    s.IsPushOnly = ((GetOps s).2.isEmpty && (GetOps s).1.all fun p => decide (p.1 ≤ OP_16)) := by
  fun_induction CScript.IsPushOnly s with
  | case1 pc h => simp [GetOps_of_none h]
  | case2 pc o v rest h hlt => simp [GetOps_of_some h, UInt8.not_le.mpr hlt]
  | case3 pc o v rest h hle ih =>
    rw [GetOps_of_some h, ih]
    simp [UInt8.not_lt.mp hle]

/-- `HasValidOps` holds exactly when every read succeeds, and reads an opcode of at most
`MAX_OPCODE` with at most `MAX_SCRIPT_ELEMENT_SIZE` bytes of data. -/
theorem CScript.HasValidOps_eq (s : CScript) :
    s.HasValidOps = ((GetOps s).2.isEmpty && (GetOps s).1.all fun p =>
      decide (p.1 ≤ MAX_OPCODE ∧ p.2.length ≤ MAX_SCRIPT_ELEMENT_SIZE)) := by
  fun_induction CScript.HasValidOps s with
  | case1 it h => simp [GetOps_of_none h]
  | case2 it o item rest h hbad =>
    rcases hbad with hop | hlen
    · simp [GetOps_of_some h, UInt8.not_le.mpr hop]
    · simp [GetOps_of_some h, not_le.mpr hlen]
  | case3 it o item rest h hok ih =>
    rw [not_or, UInt8.not_lt, not_lt] at hok
    rw [GetOps_of_some h, ih]
    simp [hok.1, hok.2]

/-- `GetSigOpCount` counts over the opcodes the loop reads, each with the one before it. -/
theorem sigOpLoop_eq (fAccurate : Bool) (n : ℕ) (lastOpcode : UInt8) (s : CScript) :
    sigOpLoop fAccurate n lastOpcode s =
      ((GetOps s).1.foldl (fun acc p => (acc.1 + sigOpsOf fAccurate acc.2 p.1, p.1))
        (n, lastOpcode)).1 := by
  fun_induction sigOpLoop fAccurate n lastOpcode s with
  | case1 n last pc h => simp [GetOps_of_none h]
  | case2 n last pc o v rest h ih => rw [ih, GetOps_of_some h, List.foldl_cons]

/-- `CScript::Find` counts the opcode among those the loop reads. -/
theorem CScript.Find_eq_count (s : CScript) (op : UInt8) :
    s.Find op = ((GetOps s).1.map Prod.fst).count op := by
  -- `findLoop` with fuel at least the length runs the same reads as `GetOps`
  suffices h : ∀ n s, s.length ≤ n → findLoop op n s = ((GetOps s).1.map Prod.fst).count op from
    h _ s le_rfl
  intro n
  induction n with
  | zero =>
    intro s hs
    rw [List.length_eq_zero_iff.mp (Nat.le_zero.mp hs)]
    simp [findLoop]
  | succ n ih =>
    intro s hs
    cases hg : GetOp s with
    | none =>
      simp [findLoop, GetScriptOp_eq_map_GetOp, hg, GetOps_of_none hg]
    | some r =>
      obtain ⟨o, vch, rest⟩ := r
      have hlt := GetOp_length_lt hg
      simp only [findLoop, GetScriptOp_eq_map_GetOp, hg, Option.map_some, GetOps_of_some hg,
        List.map_cons, List.count_cons, ih rest (by omega), beq_iff_eq]
      split_ifs <;> omega

/-! ## Reading back what was built -/

/-- A push opcode followed by its length bytes and data reads as the data. -/
theorem GetOp_push {op : UInt8} {pre b : List UInt8} (hop : op ≤ OP_PUSHDATA4)
    (hpre : pre.length = lenBytes op)
    (hsize : (if op < OP_PUSHDATA1 then op.toNat else readLE pre) = b.length) :
    GetOp (op :: (pre ++ b)) = some (op, b, []) := by
  simp only [GetOp, if_pos hop]
  rw [pushSize_eq, if_neg (by simp only [List.length_append]; omega),
    List.take_left' hpre, List.drop_left' hpre, hsize]
  simp

theorem toNat_ofNat_of_lt {x : ℕ} (h : x < 256) : (UInt8.ofNat x).toNat = x := by
  rw [UInt8.toNat_ofNat', Nat.mod_eq_of_lt h]

/-- `operator<<` of a byte vector whose length fits four bytes reads back as the vector. -/
theorem GetOp_pushData {b : List UInt8} (hb : b.length < 2 ^ 32) :
    GetOp (CScript.pushData [] b) = some (pushOpcode b, b, []) := by
  simp only [CScript.pushData, pushOpcode, List.nil_append]
  have h1 : OP_PUSHDATA1 ≤ OP_PUSHDATA4 := by decide
  split_ifs with h76 h255 h65535
  · -- the length is the opcode
    have hlen : (UInt8.ofNat b.length).toNat = b.length := toNat_ofNat_of_lt (by
      simp only [OP_PUSHDATA1] at h76; exact h76.trans (by decide))
    have hlt : UInt8.ofNat b.length < OP_PUSHDATA1 := by
      rw [UInt8.lt_iff_toNat_lt, hlen]
      exact h76
    have hle : UInt8.ofNat b.length ≤ OP_PUSHDATA4 := by
      rw [UInt8.le_iff_toNat_le, hlen]
      exact (Nat.le_of_lt h76).trans (by decide)
    exact GetOp_push hle (by simp [lenBytes, hlt])
      (by rw [if_pos hlt, hlen])
  · exact GetOp_push h1 (by simp [lenBytes, OP_PUSHDATA1])
      (by simp [OP_PUSHDATA1, readLE_cons, toNat_ofNat_of_lt (show b.length < 256 by omega)])
  · exact GetOp_push (by decide) (by simp [lenBytes, OP_PUSHDATA1, OP_PUSHDATA2])
      (by simp [OP_PUSHDATA1, OP_PUSHDATA2, readLE_writeLE, Nat.mod_eq_of_lt (show b.length < 65536 by omega)])
  · exact GetOp_push (by decide) (by simp [lenBytes, OP_PUSHDATA1, OP_PUSHDATA2, OP_PUSHDATA4])
      (by simp [OP_PUSHDATA1, OP_PUSHDATA4, readLE_writeLE, Nat.mod_eq_of_lt (show b.length < 4294967296 by omega)])

/-- Every push opcode is at most `OP_PUSHDATA4`. -/
theorem pushOpcode_le (b : List UInt8) : pushOpcode b ≤ OP_PUSHDATA4 := by
  unfold pushOpcode
  split_ifs with h76
  · rw [UInt8.le_iff_toNat_le, toNat_ofNat_of_lt (h76.trans (by decide))]
    exact (Nat.le_of_lt h76).trans (by decide)
  all_goals decide

theorem CScript.pushData_eq_append (s : CScript) (b : List UInt8) :
    s.pushData b = s ++ CScript.pushData [] b := by
  simp [CScript.pushData]

/-- An opcode that pushes nothing reads as itself. -/
theorem GetOp_singleton {o : UInt8} (ho : OP_PUSHDATA4 < o) : GetOp [o] = some (o, [], []) := by
  simp [GetOp, UInt8.not_le.mpr ho]

/-- What `push_int64` writes of an `int64_t` reads back as `ScriptItem.parsed`. -/
theorem GetOp_push_int64 {n : ℤ} (hn : -2 ^ 63 ≤ n ∧ n < 2 ^ 63) :
    GetOp (CScript.push_int64 [] n) =
      some ((ScriptItem.num n).parsed.1, (ScriptItem.num n).parsed.2, []) := by
  simp only [CScript.push_int64, ScriptItem.parsed, List.nil_append]
  split_ifs with hsmall hzero
  · -- `OP_1NEGATE` and `OP_1` to `OP_16` lie above `OP_PUSHDATA4`
    have h81 : OP_1.toNat = 81 := rfl
    refine GetOp_singleton ?_
    rw [UInt8.lt_iff_toNat_lt, toNat_ofNat_of_lt (by omega)]
    show 78 < _
    omega
  · subst hzero
    rfl
  · have hlen := (CScriptNum.length_serialize_le_iff (k := 9) (by norm_num) n).mpr (by omega)
    exact GetOp_pushData (by omega)

theorem GetOp_pushItem {it : ScriptItem} (hv : it.Valid) :
    GetOp (CScript.pushItem [] it) = some (it.parsed.1, it.parsed.2, []) := by
  cases it with
  | op o => exact GetOp_singleton hv
  | data b => exact GetOp_pushData hv
  | num n => exact GetOp_push_int64 hv

/-- `operator<<` appends, whatever the script before it. -/
theorem CScript.pushItem_eq_append (s : CScript) (it : ScriptItem) :
    s.pushItem it = s ++ CScript.pushItem [] it := by
  cases it with
  | op o => rfl
  | data b => exact CScript.pushData_eq_append s b
  | num n =>
    simp only [CScript.pushItem, CScript.push_int64]
    split_ifs
    · simp
    · simp
    · exact CScript.pushData_eq_append s _

theorem foldl_pushItem (items : List ScriptItem) (s : CScript) :
    items.foldl CScript.pushItem s = s ++ (items.map (CScript.pushItem [])).flatten := by
  induction items generalizing s with
  | nil => simp
  | cons it items ih => rw [List.foldl_cons, ih, CScript.pushItem_eq_append]; simp

/-- A script built from valid items reads back, with every read succeeding, as the items. -/
theorem GetOps_buildScript {items : List ScriptItem} (hv : ∀ it ∈ items, it.Valid) :
    GetOps (buildScript items) = (items.map ScriptItem.parsed, []) := by
  rw [buildScript, foldl_pushItem, List.nil_append]
  induction items with
  | nil => simp
  | cons it items ih =>
    rw [List.map_cons, List.flatten_cons,
      GetOps_append_of_GetOp (GetOp_pushItem (hv it List.mem_cons_self)),
      ih fun it' h => hv it' (List.mem_cons_of_mem it h)]
    rfl

/-- Script building and parsing agree: a script built from valid items, of fewer than `2 ^ 31`
bytes, reads back as the items, and every read moves forward by at least a byte and stops at or
before the end, so a loop of reads runs at most as many times as the script has bytes. The bound
is where the list of bytes is the `prevector` a `CScript` is (`prevector.pushDataBase_spec`); a
push of `3 · 2 ^ 30` bytes writes past its heap array (`prevector.pushDataBase_wraps`). -/
theorem buildScript_GetOps_roundtrip :
    (∀ items : List ScriptItem, (∀ it ∈ items, it.Valid) → (buildScript items).length < 2 ^ 31 →
      GetOps (buildScript items) = (items.map ScriptItem.parsed, [])) ∧
    (∀ (s rest : CScript) (o : UInt8) (vch : valtype), GetOp s = some (o, vch, rest) →
      ∃ k, 0 < k ∧ k ≤ s.length ∧ rest = s.drop k) ∧
    (∀ s : CScript, (GetOps s).1.length ≤ s.length) :=
  ⟨fun _ hv _ => GetOps_buildScript hv, fun _ _ _ _ h => GetOp_advance h, length_GetOps_le⟩

theorem buildScript_GetOps_roundtrip_five_push_checksig :
    GetOps (buildScript [.num 5, .data [1, 2], .op OP_CHECKSIG]) =
        ([(0x55, []), (0x02, [1, 2]), (OP_CHECKSIG, [])], []) ∧
      ∃ k, 0 < k ∧ k ≤ [OP_CHECKSIG].length ∧ ([] : CScript) = [OP_CHECKSIG].drop k := by
  refine ⟨?_, buildScript_GetOps_roundtrip.2.1 [OP_CHECKSIG] [] OP_CHECKSIG [] (by decide)⟩
  rw [buildScript_GetOps_roundtrip.1 _ (by simp [ScriptItem.Valid, OP_PUSHDATA4, OP_CHECKSIG])
    (by decide)]
  decide

end HydraNode
