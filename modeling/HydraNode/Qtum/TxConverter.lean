import HydraNode.Contract.AAL
import HydraNode.Contract.Oracle
import HydraNode.Coins.View
import HydraNode.Script.Num

/-!
# Extracting the contract calls of a transaction

`QtumTxConverter::extractionQtumTransactions` (`validation.cpp`) reads the parameters of every
contract output of a transaction, one output after the other, with one converter. For each
output `receiveStack` runs the script through `EvalScript`, which pushes the items of the script
and stops at `OP_CREATE`, `OP_CALL` or `OP_COINSTAKE_CALL` with the rest of the script on top;
`parseEthTXParams` then pops the receive address of a call, the code, the gas limit and the VM
version.

The evaluation stack is a member of the converter, and nothing empties it between outputs but a
failed size check of `receiveStack`, after which the extraction fails anyway. An output with
`OP_SENDER` carries three items below its parameters (the address type, the address and the
sender's signature) that the parser never pops, so they stay on the stack for the next output.
The size checks of the next output count them, and an output that is an item short reads that
item from them: the extraction accepts a transaction with an output that, parsed alone, is
rejected, and the version it reads for that output is the earlier output's signature
(`extractionQtumTransactions_reads_leftover`). A stack operation reads the leftovers too:
`OP_DEPTH` counts them. An output that parses alone, and whose script runs no stack operation,
parses the same over leftovers, as long as the stack stays within `MAX_STACK_SIZE`
(`extractionQtumTransactions_of_alone`). The contract templates of `Solver`, which push data and
small numbers before `OP_SENDER` and the contract opcode, run none.

## What is modelled of `EvalScript`

`EvalScript` is modelled on the opcodes that push, on the stack operations (`OP_NOP`, `OP_DEPTH`,
`OP_DROP`, `OP_DUP` and the others of that group, but for `OP_TOALTSTACK` and `OP_FROMALTSTACK`),
on `OP_SENDER`, `OP_SPEND`, the contract opcodes and the disabled opcodes, with every check it
makes on the way: the script size, a read that runs past the script, the push size, the opcode
count, minimal pushes under `SCRIPT_VERIFY_MINIMALDATA`, the items a stack operation needs, and
the stack size after each instruction. Which instruction comes next does not depend on the stack
(`evalStep`); a stack operation reads it (`stackOp`), as does the size check after each
instruction. The other opcodes (conditionals, the alternate stack, arithmetic, hashes and
signatures) are outside the model, and `EvalScript` answers `none` there, as `receiveStack` does
where it reads the opcode of an empty item, which is undefined in the source.

The stack is a list whose head is the top, `stack.back()`. The receive address is kept as the item
`dev::Address(vecAddr)` is built from, and the gas price is the oracle's, passed in. The
`QtumTransaction` that `createEthTX` builds from the parameters, and the refund sender, are left
out: the extraction here returns each parameter set with the index of its output.

## Main definitions

* `GetOp`, `stackOp`, `evalStep`, `EvalScript`, `CScript.HasOpSender`, `CScript.RunsNoStackOp`
* `QtumTxConverter`, `QtumTxConverter.receiveStack`, `QtumTxConverter.parseEthTXParams`,
  `extractionQtumTransactions`
* `parseOutputAlone`, `extractAlone` — each contract output parsed on its own, from an empty
  stack

## Main results

* `EvalScript_append` — items below the stack stay below it, and are not read
* `QtumTxConverter.receiveStack_append`, `QtumTxConverter.parseEthTXParams_append`
* `extractionQtumTransactions_of_alone`
* `extractionQtumTransactions_reads_leftover`
-/

namespace HydraNode

/-! ## Reading an instruction -/

/-- A stack item, `valtype`. -/
abbrev valtype := List UInt8

/-- `GetScriptOp` with `pvchRet`: the opcode at the start of the script, the data it pushes, and
the script after it; `none` at the end of the script, or where the operand runs past it. -/
def GetOp : CScript → Option (UInt8 × valtype × CScript)
  | [] => none
  | op :: rest =>
    if op ≤ OP_PUSHDATA4 then
      match pushSize op rest with
      | none => none
      | some (nSize, rest) =>
        if rest.length < nSize then none else some (op, rest.take nSize, rest.drop nSize)
    else some (op, [], rest)

theorem GetScriptOp_eq_map_GetOp (s : CScript) :
    GetScriptOp s = (GetOp s).map fun r => (r.1, r.2.2) := by
  cases s with
  | nil => rfl
  | cons op rest =>
    by_cases hop : op ≤ OP_PUSHDATA4
    · cases hp : pushSize op rest with
      | none => simp [GetScriptOp, GetOp, hop, hp]
      | some p =>
        obtain ⟨n, r⟩ := p
        by_cases hn : r.length < n <;> simp [GetScriptOp, GetOp, hop, hp, hn]
    · simp [GetScriptOp, GetOp, hop]

theorem GetOp_length_lt {s rest : CScript} {o : UInt8} {vch : valtype}
    (h : GetOp s = some (o, vch, rest)) : rest.length < s.length :=
  GetScriptOp_length_lt (o := o) (by rw [GetScriptOp_eq_map_GetOp, h]; rfl)

/-! ## `EvalScript` on the opcodes of contract scripts -/

def OP_1NEGATE : UInt8 := 0x4f
def OP_1 : UInt8 := 0x51
def OP_16 : UInt8 := 0x60

def MAX_SCRIPT_ELEMENT_SIZE : ℕ := 128000
def MAX_OPS_PER_SCRIPT : ℕ := 201
def MAX_STACK_SIZE : ℕ := 1000

def SCRIPT_VERIFY_MINIMALDATA : UInt32 := (1 : UInt32) <<< 6
def SCRIPT_OUTPUT_SENDER : UInt32 := (1 : UInt32) <<< 29
def SCRIPT_EXEC_BYTE_CODE : UInt32 := (1 : UInt32) <<< 30

/-- The opcodes `EvalScript` rejects wherever they stand: `OP_CAT`, `OP_SUBSTR`, `OP_LEFT`,
`OP_RIGHT`, `OP_INVERT`, `OP_AND`, `OP_OR`, `OP_XOR`, `OP_2MUL`, `OP_2DIV`, `OP_MUL`, `OP_DIV`,
`OP_MOD`, `OP_LSHIFT` and `OP_RSHIFT`. -/
def disabledOpcodes : List UInt8 :=
  [0x7e, 0x7f, 0x80, 0x81, 0x83, 0x84, 0x85, 0x86, 0x8d, 0x8e, 0x95, 0x96, 0x97, 0x98, 0x99]

/-- `CheckMinimalPush`: the data is pushed with the shortest opcode that pushes it. -/
def CheckMinimalPush (data : valtype) (opcode : UInt8) : Bool :=
  if data.length = 0 then opcode == OP_0
  else if data.length = 1 ∧ 1 ≤ data.headD 0 ∧ data.headD 0 ≤ 16 then false
  else if data.length = 1 ∧ data.headD 0 = 0x81 then false
  else if data.length ≤ 75 then opcode.toNat == data.length
  else if data.length ≤ 255 then opcode == OP_PUSHDATA1
  else if data.length ≤ 65535 then opcode == OP_PUSHDATA2
  else true

/-- `CScriptNum(opcode - (OP_1 - 1)).getvch()` for `OP_1NEGATE` and `OP_1` to `OP_16`: `0x81`
for `-1`, and the byte `n` for `n` from `1` to `16`. -/
def smallIntVch (opcode : UInt8) : valtype :=
  if opcode = OP_1NEGATE then [0x81] else [opcode - (OP_1 - 1)]

def OP_NOP : UInt8 := 0x61
def OP_2DROP : UInt8 := 0x6d
def OP_2DUP : UInt8 := 0x6e
def OP_3DUP : UInt8 := 0x6f
def OP_2OVER : UInt8 := 0x70
def OP_2ROT : UInt8 := 0x71
def OP_2SWAP : UInt8 := 0x72
def OP_IFDUP : UInt8 := 0x73
def OP_DEPTH : UInt8 := 0x74
def OP_DROP : UInt8 := 0x75
def OP_NIP : UInt8 := 0x77
def OP_OVER : UInt8 := 0x78
def OP_PICK : UInt8 := 0x79
def OP_ROLL : UInt8 := 0x7a
def OP_ROT : UInt8 := 0x7b
def OP_SWAP : UInt8 := 0x7c
def OP_TUCK : UInt8 := 0x7d
def OP_SIZE : UInt8 := 0x82

/-- `CastToBool`: an item is false when its bytes are zero, but for a sign bit in the last. -/
def CastToBool (vch : valtype) : Bool :=
  match vch.reverse with
  | [] => false
  | last :: init => init.any (· != 0) || (last != 0 && last != 0x80)

/-- The opcodes of the stack operations `stackOp` models. -/
def stackOpcodes : List UInt8 :=
  [OP_NOP, OP_2DROP, OP_2DUP, OP_3DUP, OP_2OVER, OP_2ROT, OP_2SWAP, OP_IFDUP, OP_DEPTH, OP_DROP,
    OP_DUP, OP_NIP, OP_OVER, OP_PICK, OP_ROLL, OP_ROT, OP_SWAP, OP_TUCK, OP_SIZE]

/-- `OP_PICK` and `OP_ROLL` on the stack with its top first: the top item is the position `n`,
popped; the item at `n` below it is copied to the top, and by `OP_ROLL` taken from its place. A
position that is not a number fails before the pop, one outside the stack after it. -/
def pickOrRoll (fRequireMinimal : Bool) (roll : Bool) : List valtype → Bool × List valtype
  | top :: stack =>
    if stack = [] then (false, top :: stack)
    else match CScriptNum.ofVch top fRequireMinimal 4 with
      | .error _ => (false, top :: stack)
      | .ok n =>
        if n < 0 ∨ stack.length ≤ n.toNat then (false, stack)
        else
          let vch := stack.getD n.toNat []
          (true, vch :: if roll then stack.eraseIdx n.toNat else stack)
  | [] => (false, [])

/-- The stack operations of `EvalScript`, on the stack with its top first: whether the
operation succeeds, and the stack it leaves. A stack with fewer items than the operation needs
fails with `SCRIPT_ERR_INVALID_STACK_OPERATION`, unchanged. -/
def stackOp (fRequireMinimal : Bool) (opcode : UInt8) (stack : List valtype) :
    Bool × List valtype :=
  if opcode = OP_NOP then (true, stack)
  else if opcode = OP_DEPTH then (true, CScriptNum.serialize stack.length :: stack)
  else if opcode = OP_PICK then pickOrRoll fRequireMinimal false stack
  else if opcode = OP_ROLL then pickOrRoll fRequireMinimal true stack
  else
    match opcode, stack with
    | op, x2 :: x1 :: s =>
      if op = OP_2DROP then (true, s)
      else if op = OP_2DUP then (true, x2 :: x1 :: x2 :: x1 :: s)
      else if op = OP_NIP then (true, x2 :: s)
      else if op = OP_OVER then (true, x1 :: x2 :: x1 :: s)
      else if op = OP_SWAP then (true, x1 :: x2 :: s)
      else if op = OP_TUCK then (true, x2 :: x1 :: x2 :: s)
      else if op = OP_IFDUP then (true, if CastToBool x2 then x2 :: x2 :: x1 :: s else stack)
      else if op = OP_DROP then (true, x1 :: s)
      else if op = OP_DUP then (true, x2 :: x2 :: x1 :: s)
      else if op = OP_SIZE then (true, CScriptNum.serialize x2.length :: x2 :: x1 :: s)
      else if op = OP_3DUP then
        match s with
        | x0 :: s => (true, x2 :: x1 :: x0 :: x2 :: x1 :: x0 :: s)
        | [] => (false, stack)
      else if op = OP_ROT then
        match s with
        | x0 :: s => (true, x0 :: x2 :: x1 :: s)
        | [] => (false, stack)
      else if op = OP_2OVER then
        match s with
        | x4 :: x3 :: s => (true, x4 :: x3 :: x2 :: x1 :: x4 :: x3 :: s)
        | _ => (false, stack)
      else if op = OP_2SWAP then
        match s with
        | x4 :: x3 :: s => (true, x4 :: x3 :: x2 :: x1 :: s)
        | _ => (false, stack)
      else
        -- `OP_2ROT`: the third pair from the top goes to the top
        match s with
        | x4 :: x3 :: x6 :: x5 :: s => (true, x6 :: x5 :: x2 :: x1 :: x4 :: x3 :: s)
        | _ => (false, stack)
    | op, [x] =>
      if op = OP_IFDUP then (true, if CastToBool x then [x, x] else [x])
      else if op = OP_DROP then (true, [])
      else if op = OP_DUP then (true, [x, x])
      else if op = OP_SIZE then (true, [CScriptNum.serialize x.length, x])
      else (false, stack)
    | _, [] => (false, stack)

/-- What one instruction of `EvalScript`'s loop does. -/
inductive EvalStep
  /-- `EvalScript` returns, with success or with an error. -/
  | done (success : Bool)
  /-- The item is pushed, and the loop goes on at `rest` with `nOpCount` opcodes counted. -/
  | push (item : valtype) (rest : CScript) (nOpCount : ℕ)
  /-- Nothing is pushed (`OP_SENDER`). -/
  | next (rest : CScript) (nOpCount : ℕ)
  /-- A stack operation, `stackOp opcode`. -/
  | stack (opcode : UInt8) (rest : CScript) (nOpCount : ℕ)
  /-- A contract opcode: the script from it on is pushed, and `EvalScript` returns `true`. -/
  | contract (scriptRest : CScript)
  /-- An opcode outside the model. -/
  | unmodelled
  deriving DecidableEq, Repr

/-- The instruction of `EvalScript` at the non-empty script `pc`, with `nOpCount` opcodes counted
so far, up to the stack size check after it. -/
def evalStep (flags : UInt32) (pc : CScript) (nOpCount : ℕ) : EvalStep :=
  match GetOp pc with
  | none => .done false
  | some (opcode, vchPushValue, rest) =>
    -- `OP_RESERVED` and the pushes do not count towards the opcode limit
    let nOpCount := if OP_16 < opcode then nOpCount + 1 else nOpCount
    if MAX_SCRIPT_ELEMENT_SIZE < vchPushValue.length then .done false
    else if MAX_OPS_PER_SCRIPT < nOpCount then .done false
    else if opcode ∈ disabledOpcodes then .done false
    else if opcode ≤ OP_PUSHDATA4 then
      if flags &&& SCRIPT_VERIFY_MINIMALDATA ≠ 0 ∧ CheckMinimalPush vchPushValue opcode = false then
        .done false
      else .push vchPushValue rest nOpCount
    else if opcode = OP_1NEGATE ∨ (OP_1 ≤ opcode ∧ opcode ≤ OP_16) then
      .push (smallIntVch opcode) rest nOpCount
    else if opcode = OP_SENDER then
      if flags &&& SCRIPT_OUTPUT_SENDER = 0 then .done false else .next rest nOpCount
    else if opcode = OP_SPEND then .done true
    else if opcode = OP_COINSTAKE_CALL ∨ opcode = OP_CREATE ∨ opcode = OP_CALL then .contract pc
    else if opcode ∈ stackOpcodes then .stack opcode rest nOpCount
    else .unmodelled

/-- The loop of `EvalScript`, for at most `fuel` more instructions: whether it succeeds, and the
stack it leaves. After each instruction the stack may hold `MAX_STACK_SIZE` items. -/
def evalLoop (flags : UInt32) : ℕ → CScript → ℕ → List valtype → Option (Bool × List valtype)
  | 0, _, _, stack => some (true, stack)
  | fuel + 1, pc, nOpCount, stack =>
    match pc with
    | [] => some (true, stack)
    | _ :: _ =>
      match evalStep flags pc nOpCount with
      | .done success => some (success, stack)
      | .push item rest nOpCount =>
        if MAX_STACK_SIZE < (item :: stack).length then some (false, item :: stack)
        else evalLoop flags fuel rest nOpCount (item :: stack)
      | .next rest nOpCount =>
        if MAX_STACK_SIZE < stack.length then some (false, stack)
        else evalLoop flags fuel rest nOpCount stack
      | .stack opcode rest nOpCount =>
        match stackOp (flags &&& SCRIPT_VERIFY_MINIMALDATA != 0) opcode stack with
        | (false, stack) => some (false, stack)
        | (true, stack) =>
          if MAX_STACK_SIZE < stack.length then some (false, stack)
          else evalLoop flags fuel rest nOpCount stack
      | .contract scriptRest => some (true, scriptRest :: stack)
      | .unmodelled => none

/-- `EvalScript(stack, script, flags, ...)`: each instruction reads at least a byte, so
`script.length` instructions are enough. -/
def EvalScript (flags : UInt32) (stack : List valtype) (script : CScript) :
    Option (Bool × List valtype) :=
  if MAX_SCRIPT_SIZE < script.length then some (false, stack)
  else evalLoop flags script.length script 0 stack

/-- The instructions the loop of `EvalScript` meets on the script from `pc` on, with `nOpCount`
opcodes counted, include no stack operation. Which instructions it meets does not depend on the
stack. -/
def readsNoStack (flags : UInt32) : ℕ → CScript → ℕ → Bool
  | 0, _, _ => true
  | _ + 1, [], _ => true
  | fuel + 1, op :: rest, nOpCount =>
    match evalStep flags (op :: rest) nOpCount with
    | .push _ pc n => readsNoStack flags fuel pc n
    | .next pc n => readsNoStack flags fuel pc n
    | .stack .. => false
    | _ => true

/-- `EvalScript` runs no stack operation on the script. -/
def CScript.RunsNoStackOp (flags : UInt32) (script : CScript) : Bool :=
  readsNoStack flags script.length script 0

/-- `CScript::HasOpSender`. -/
def CScript.HasOpSender (s : CScript) : Bool := s.Find OP_SENDER == 1

/-- The outputs `extractionQtumTransactions` parses: those that create, call, or make a
coinstake call. -/
def CScript.IsContractOutput (s : CScript) : Bool :=
  s.HasOpCreate || s.HasOpCall || s.HasOpCoinstakeCall

/-! ## The converter -/

/-- The members of `QtumTxConverter` its parsing reads and writes: the evaluation stack, the
contract opcode of the output, and whether the output has `OP_SENDER`. -/
structure QtumTxConverter where
  stack : List valtype
  opcode : UInt8
  sender : Bool
  deriving DecidableEq, Repr

/-- `EthTransactionParams`: the VM version as the 32 bits `VersionVM::fromRaw` reads, the gas
price and limit, the item the receive address is built from (`none` for `dev::Address()`), the
code, and the contract opcode. -/
structure EthTransactionParams where
  version : ℕ
  gasPrice : ℕ
  gasLimit : ℕ
  receiveAddress : Option valtype
  code : valtype
  type : UInt8
  deriving DecidableEq, Repr

/-- `stack.back()` then `stack.pop_back()`; `none` on an empty stack, whose top is undefined. -/
def popStack : List valtype → Option (valtype × List valtype)
  | [] => none
  | x :: s => some (x, s)

/-- `CScriptNum::vch_to_uint64`: a little-endian number of at most 8 bytes whose last byte has no
sign bit; `none` where it throws `scriptnum_error`. -/
def vch_to_uint64 (vch : valtype) : Option ℕ :=
  if 8 < vch.length then none
  else if vch = [] then some 0
  else if vch.getLastD 0 &&& 0x80 ≠ 0 then none
  else some (readLE vch)

namespace QtumTxConverter

/-- A new converter: an empty stack and `sender(false)`. `opcode` is not initialised; it is
written before it is read. -/
def init : QtumTxConverter := ⟨[], OP_0, false⟩

/-- `correctedStackSize(size)`: `OP_SENDER` puts three more items below the parameters. -/
def correctedStackSize (c : QtumTxConverter) (size : ℕ) : ℕ := if c.sender then size + 3 else size

/-- `receiveStack(scriptPubKey)`: the script is run over the converter's stack, whatever
`EvalScript` returns; its top item is the rest of the script from the contract opcode. It
answers whether the stack holds enough items for that opcode, and clears the stack when not. -/
def receiveStack (nFlags : UInt32) (c : QtumTxConverter) (scriptPubKey : CScript) :
    Option (Bool × QtumTxConverter) :=
  (EvalScript nFlags c.stack scriptPubKey).bind fun r =>
    match r.2 with
    | [] => some (false, { c with stack := [], sender := false })
    | scriptRest :: stack =>
      match scriptRest with
      | [] => none
      | opcode :: _ =>
        let c : QtumTxConverter := ⟨stack, opcode, scriptPubKey.HasOpSender⟩
        if (opcode = OP_CREATE ∧ stack.length < c.correctedStackSize 3) ∨
            (opcode = OP_CALL ∧ stack.length < c.correctedStackSize 4) ∨
            (opcode = OP_COINSTAKE_CALL ∧ stack.length < c.correctedStackSize 3) then
          some (false, ⟨[], opcode, false⟩)
        else some (true, c)

/-- The receive address of a call, popped from the top; a creation has `dev::Address()`. -/
def popReceiveAddress (opcode : UInt8) (stack : List valtype) :
    Option (Option valtype × List valtype) :=
  if opcode = OP_CALL ∨ opcode = OP_COINSTAKE_CALL then
    (popStack stack).map fun r => (some r.1, r.2)
  else some (none, stack)

/-- The gas price and limit: fixed for a coinstake call, and otherwise the oracle's price with
the limit popped from the top, both at most `INT64_MAX`; `some none` where the limit is no
number or one of them is too large. -/
def popGas (oracleGasPrice : ℕ) (opcode : UInt8) (stack : List valtype) :
    Option (Option (ℕ × ℕ × List valtype)) :=
  if opcode = OP_COINSTAKE_CALL then some (some (1, INT32_MAX, stack))
  else (popStack stack).map fun r =>
    (vch_to_uint64 r.1).bind fun gasLimit =>
      if INT64_MAX < oracleGasPrice ∨ INT64_MAX < gasLimit then none
      else some (oracleGasPrice, gasLimit, r.2)

/-- `parseEthTXParams(params)`, with the oracle's gas price: the parameters and the stack after
the pops, or `some none` where it returns `false` (the converter is not used after that, so its
stack is not kept); `none` where it reads the top of an empty stack. -/
def parseEthTXParams (oracleGasPrice : ℕ) (c : QtumTxConverter) :
    Option (Option (EthTransactionParams × List valtype)) :=
  (popReceiveAddress c.opcode c.stack).bind fun r =>
    if r.2.length < c.correctedStackSize 3 ∧ c.opcode ≠ OP_COINSTAKE_CALL then some none
    else (popStack r.2).bind fun code =>
      if code.1.length < 1 then some none
      else (popGas oracleGasPrice c.opcode code.2).bind fun
        | none => some none
        | some (gasPrice, gasLimit, stack) =>
          -- the gas is counted as a `CAmount` in places, so the product must fit in 64 bits
          if gasPrice ≠ 0 ∧ INT64_MAX / gasPrice < gasLimit then some none
          else (popStack stack).bind fun vch =>
            if 4 < vch.1.length then some none
            else (vch_to_uint64 vch.1).elim (some none) fun version =>
              some (some (⟨version % 2 ^ 32, gasPrice, gasLimit, r.1, code.1, c.opcode⟩, vch.2))

end QtumTxConverter

open QtumTxConverter in
/-- The loop of `extractionQtumTransactions` over the outputs from index `i` on, with the
converter `c`: the parameters of each contract output with its index, or `some none` where it
returns `false`. -/
def extractionLoop (nFlags : UInt32) (oracleGasPrice : ℕ) :
    QtumTxConverter → ℕ → List CTxOut → Option (Option (List (ℕ × EthTransactionParams)))
  | _, _, [] => some (some [])
  | c, i, out :: vout =>
    if out.scriptPubKey.IsContractOutput then
      (receiveStack nFlags c out.scriptPubKey).bind fun
        | (false, _) => some none
        | (true, c) =>
          (parseEthTXParams oracleGasPrice c).bind fun
            | none => some none
            | some (params, stack) =>
              (extractionLoop nFlags oracleGasPrice { c with stack } (i + 1) vout).map
                (·.map ((i, params) :: ·))
    else extractionLoop nFlags oracleGasPrice c (i + 1) vout

/-- `extractionQtumTransactions(qtumtx)` of the transaction, with a new converter. -/
def extractionQtumTransactions (nFlags : UInt32) (oracleGasPrice : ℕ) (tx : CTransaction) :
    Option (Option (List (ℕ × EthTransactionParams))) :=
  extractionLoop nFlags oracleGasPrice QtumTxConverter.init 0 tx.vout

/-! ## Each output on its own -/

open QtumTxConverter in
/-- `receiveStack` and `parseEthTXParams` of one output, from a new converter. -/
def parseOutputAlone (nFlags : UInt32) (oracleGasPrice : ℕ) (scriptPubKey : CScript) :
    Option (Option EthTransactionParams) :=
  (receiveStack nFlags init scriptPubKey).bind fun
    | (false, _) => some none
    | (true, c) => (parseEthTXParams oracleGasPrice c).map (·.map (·.1))

/-- Every contract output from index `i` on parsed on its own, stopping at the first that fails:
what the extraction would return if the outputs were parsed independently. -/
def extractAlone (nFlags : UInt32) (oracleGasPrice : ℕ) :
    ℕ → List CTxOut → Option (Option (List (ℕ × EthTransactionParams)))
  | _, [] => some (some [])
  | i, out :: vout =>
    if out.scriptPubKey.IsContractOutput then
      (parseOutputAlone nFlags oracleGasPrice out.scriptPubKey).bind fun
        | none => some none
        | some params => (extractAlone nFlags oracleGasPrice (i + 1) vout).map
            (·.map ((i, params) :: ·))
    else extractAlone nFlags oracleGasPrice (i + 1) vout

/-- The number of items `EvalScript` leaves when it runs the script on an empty stack. -/
def evalDepth (flags : UInt32) (script : CScript) : ℕ :=
  ((EvalScript flags [] script).map (·.2.length)).getD 0

/-! ## Items below the stack -/

section Frame

variable (flags : UInt32)

/-- A run without stack operations goes on from each instruction that pushes or moves on. -/
theorem readsNoStack_of_push {fuel : ℕ} {op : UInt8} {rest pc : CScript} {n n' : ℕ} {item : valtype}
    (hns : readsNoStack flags (fuel + 1) (op :: rest) n = true)
    (hstep : evalStep flags (op :: rest) n = .push item pc n') : readsNoStack flags fuel pc n' = true := by
  simpa [readsNoStack, hstep] using hns

theorem readsNoStack_of_next {fuel : ℕ} {op : UInt8} {rest pc : CScript} {n n' : ℕ}
    (hns : readsNoStack flags (fuel + 1) (op :: rest) n = true)
    (hstep : evalStep flags (op :: rest) n = .next pc n') : readsNoStack flags fuel pc n' = true := by
  simpa [readsNoStack, hstep] using hns

theorem readsNoStack_not_stack {fuel : ℕ} {op opcode : UInt8} {rest pc : CScript} {n n' : ℕ}
    (hns : readsNoStack flags (fuel + 1) (op :: rest) n = true) :
    evalStep flags (op :: rest) n ≠ .stack opcode pc n' := by
  intro hstep
  simp [readsNoStack, hstep] at hns

/-- Without stack operations `EvalScript`'s loop only pushes. The induction is on the fuel, one
instruction at a time. -/
theorem evalLoop_length_le : ∀ (fuel : ℕ) (pc : CScript) (n : ℕ) (s : List valtype) {b : Bool}
    {s' : List valtype}, readsNoStack flags fuel pc n = true →
    evalLoop flags fuel pc n s = some (b, s') → s.length ≤ s'.length
  | 0, _, _, s, _, _, _, h => by
    simp only [evalLoop, Option.some.injEq, Prod.mk.injEq] at h
    rw [← h.2]
  | fuel + 1, [], _, s, _, _, _, h => by
    simp only [evalLoop, Option.some.injEq, Prod.mk.injEq] at h
    rw [← h.2]
  | fuel + 1, op :: rest, n, s, b, s', hns, h => by
    cases hstep : evalStep flags (op :: rest) n with
    | done success =>
      simp only [evalLoop, hstep, Option.some.injEq, Prod.mk.injEq] at h
      rw [← h.2]
    | push item r n' =>
      simp only [evalLoop, hstep] at h
      split_ifs at h
      · simp only [Option.some.injEq, Prod.mk.injEq] at h
        rw [← h.2, List.length_cons]
        omega
      · have := evalLoop_length_le fuel r n' (item :: s) (readsNoStack_of_push flags hns hstep) h
        rw [List.length_cons] at this
        omega
    | next r n' =>
      simp only [evalLoop, hstep] at h
      split_ifs at h
      · simp only [Option.some.injEq, Prod.mk.injEq] at h
        rw [← h.2]
      · exact evalLoop_length_le fuel r n' s (readsNoStack_of_next flags hns hstep) h
    | stack opcode r n' => exact absurd hstep (readsNoStack_not_stack flags hns)
    | contract scriptRest =>
      simp only [evalLoop, hstep, Option.some.injEq, Prod.mk.injEq] at h
      rw [← h.2, List.length_cons]
      omega
    | unmodelled => simp [evalLoop, hstep] at h

/-- Items below the stack stay below it and are not read, when the loop meets no stack operation
and the stack it ends with fits in `MAX_STACK_SIZE` together with them: every size check passes
on the way, since the stack only grows (`evalLoop_length_le`). -/
theorem evalLoop_append (L : List valtype) : ∀ (fuel : ℕ) (pc : CScript) (n : ℕ)
    (s : List valtype) {b : Bool} {s' : List valtype}, readsNoStack flags fuel pc n = true →
    evalLoop flags fuel pc n s = some (b, s') →
    s'.length + L.length ≤ MAX_STACK_SIZE → evalLoop flags fuel pc n (s ++ L) = some (b, s' ++ L)
  | 0, _, _, s, _, _, _, h, _ => by
    simp only [evalLoop, Option.some.injEq, Prod.mk.injEq] at h
    rw [← h.1, ← h.2]
    rfl
  | fuel + 1, [], _, s, _, _, _, h, _ => by
    simp only [evalLoop, Option.some.injEq, Prod.mk.injEq] at h
    rw [← h.1, ← h.2]
    rfl
  | fuel + 1, op :: rest, n, s, b, s', hns, h, hsize => by
    cases hstep : evalStep flags (op :: rest) n with
    | done success =>
      simp only [evalLoop, hstep, Option.some.injEq, Prod.mk.injEq] at h ⊢
      exact ⟨h.1, by rw [h.2]⟩
    | push item r n' =>
      have hns' := readsNoStack_of_push flags hns hstep
      simp only [evalLoop, hstep] at h ⊢
      split_ifs at h with hover
      · -- the size check failed alone, so the final stack is already too large
        simp only [Option.some.injEq, Prod.mk.injEq] at h
        rw [← h.2] at hsize
        omega
      · have hle := evalLoop_length_le flags fuel r n' (item :: s) hns' h
        rw [if_neg (by simp only [List.length_cons, List.length_append] at hle ⊢; omega)]
        exact evalLoop_append L fuel r n' (item :: s) hns' h hsize
    | next r n' =>
      have hns' := readsNoStack_of_next flags hns hstep
      simp only [evalLoop, hstep] at h ⊢
      split_ifs at h with hover
      · simp only [Option.some.injEq, Prod.mk.injEq] at h
        rw [← h.2] at hsize
        omega
      · have hle := evalLoop_length_le flags fuel r n' s hns' h
        rw [if_neg (by simp only [List.length_append]; omega)]
        exact evalLoop_append L fuel r n' s hns' h hsize
    | stack opcode r n' => exact absurd hstep (readsNoStack_not_stack flags hns)
    | contract scriptRest =>
      simp only [evalLoop, hstep, Option.some.injEq, Prod.mk.injEq] at h ⊢
      exact ⟨h.1, by rw [← h.2]; rfl⟩
    | unmodelled => simp [evalLoop, hstep] at h

theorem EvalScript_append {s s' L : List valtype} {script : CScript} {b : Bool}
    (hns : script.RunsNoStackOp flags = true)
    (h : EvalScript flags s script = some (b, s')) (hsize : s'.length + L.length ≤ MAX_STACK_SIZE) :
    EvalScript flags (s ++ L) script = some (b, s' ++ L) := by
  rw [EvalScript] at h ⊢
  split_ifs at h ⊢
  · simp only [Option.some.injEq, Prod.mk.injEq] at h ⊢
    exact ⟨h.1, by rw [h.2]⟩
  · exact evalLoop_append flags L _ _ _ _ hns h hsize

end Frame

namespace QtumTxConverter

theorem correctedStackSize_eq (c : QtumTxConverter) (size : ℕ) :
    c.correctedStackSize size = if c.sender then size + 3 else size := rfl

/-- `receiveStack` over items left below the stack: the checks pass on the longer stack, and
the converter keeps the items below. `receiveStack` reads only the stack of the converter it
is given. -/
theorem receiveStack_append {nFlags : UInt32} {c c' : QtumTxConverter} {script : CScript}
    {L : List valtype} (hns : script.RunsNoStackOp nFlags = true)
    (h : receiveStack nFlags c script = some (true, c'))
    (hsize : ∀ b s, EvalScript nFlags c.stack script = some (b, s) →
      s.length + L.length ≤ MAX_STACK_SIZE)
    (d : QtumTxConverter) (hd : d.stack = c.stack ++ L) :
    receiveStack nFlags d script = some (true, { c' with stack := c'.stack ++ L }) := by
  obtain ⟨⟨b, s⟩, heval, h⟩ := Option.bind_eq_some_iff.mp h
  have heval' := EvalScript_append nFlags hns heval (hsize b s heval)
  rw [receiveStack, hd, heval', Option.bind_some]
  cases s with
  | nil => simp at h
  | cons scriptRest stack =>
    cases scriptRest with
    | nil => simp at h
    | cons opcode tail =>
      dsimp only at h ⊢
      split_ifs at h with hcheck
      · simp at h
      simp only [Option.some.injEq, Prod.mk.injEq, true_and] at h
      subst h
      simp only [List.cons_append]
      rw [if_neg]
      -- the items below only lengthen the stack the checks read
      intro hc
      apply hcheck
      simp only [correctedStackSize_eq, List.length_append] at hc ⊢
      rcases hc with ⟨h₁, h₂⟩ | ⟨h₁, h₂⟩ | ⟨h₁, h₂⟩
      · exact Or.inl ⟨h₁, by omega⟩
      · exact Or.inr (Or.inl ⟨h₁, by omega⟩)
      · exact Or.inr (Or.inr ⟨h₁, by omega⟩)

theorem popStack_eq_some {s s' : List valtype} {x : valtype} :
    popStack s = some (x, s') ↔ s = x :: s' := by
  cases s <;> simp [popStack, eq_comm]

theorem popReceiveAddress_append {opcode : UInt8} {s s' : List valtype} {a : Option valtype}
    (L : List valtype) (h : popReceiveAddress opcode s = some (a, s')) :
    popReceiveAddress opcode (s ++ L) = some (a, s' ++ L) ∧ s'.length ≤ s.length := by
  rw [popReceiveAddress] at h ⊢
  split_ifs at h ⊢
  · obtain ⟨⟨x, t⟩, hpop, he⟩ := Option.map_eq_some_iff.mp h
    simp only [Prod.mk.injEq] at he
    rw [popStack_eq_some] at hpop
    subst hpop
    rw [← he.1, ← he.2]
    exact ⟨rfl, by simp⟩
  · simp only [Option.some.injEq, Prod.mk.injEq] at h
    rw [← h.1, ← h.2]
    exact ⟨rfl, le_rfl⟩

theorem popGas_append {oracleGasPrice : ℕ} {opcode : UInt8} {s s' : List valtype}
    {gasPrice gasLimit : ℕ} (L : List valtype)
    (h : popGas oracleGasPrice opcode s = some (some (gasPrice, gasLimit, s'))) :
    popGas oracleGasPrice opcode (s ++ L) = some (some (gasPrice, gasLimit, s' ++ L)) ∧
      s'.length ≤ s.length := by
  rw [popGas] at h ⊢
  split_ifs at h ⊢
  · simp only [Option.some.injEq, Prod.mk.injEq] at h
    rw [← h.1, ← h.2.1, ← h.2.2]
    exact ⟨rfl, le_rfl⟩
  · obtain ⟨⟨x, t⟩, hpop, he⟩ := Option.map_eq_some_iff.mp h
    rw [popStack_eq_some] at hpop
    subst hpop
    obtain ⟨limit, hlimit, he⟩ := Option.bind_eq_some_iff.mp he
    dsimp only at hlimit he
    split_ifs at he with hbig
    simp only [Option.some.injEq, Prod.mk.injEq] at he
    obtain ⟨rfl, rfl, rfl⟩ := he
    refine ⟨?_, by simp⟩
    simp only [List.cons_append, popStack, Option.map_some, hlimit, Option.bind_some,
      if_neg hbig]

/-- `parseEthTXParams` over items left below the stack pops the same items and reads the same
parameters when it succeeds alone: its one size check passes on the longer stack, and every
other check reads a popped item. -/
theorem parseEthTXParams_append {g : ℕ} {c : QtumTxConverter} {p : EthTransactionParams}
    {s' : List valtype} (L : List valtype) (h : parseEthTXParams g c = some (some (p, s'))) :
    parseEthTXParams g { c with stack := c.stack ++ L } = some (some (p, s' ++ L)) ∧
      s'.length ≤ c.stack.length := by
  rw [parseEthTXParams, Option.bind_eq_some_iff] at h
  obtain ⟨⟨addr, s₁⟩, h₁, h⟩ := h
  obtain ⟨h₁', hle₁⟩ := popReceiveAddress_append L h₁
  dsimp only at h
  split_ifs at h with hcheck
  · simp at h
  rw [Option.bind_eq_some_iff] at h
  obtain ⟨⟨code, s₂⟩, h₂, h⟩ := h
  rw [popStack_eq_some] at h₂
  subst h₂
  dsimp only at h
  split_ifs at h with hcode
  · simp at h
  rw [Option.bind_eq_some_iff] at h
  obtain ⟨gas, h₃, h⟩ := h
  rcases gas with - | ⟨gasPrice, gasLimit, s₃⟩
  · simp at h
  obtain ⟨h₃', hle₃⟩ := popGas_append L h₃
  dsimp only at h
  split_ifs at h with hover
  · simp at h
  rw [Option.bind_eq_some_iff] at h
  obtain ⟨⟨vch, s₄⟩, h₄, h⟩ := h
  rw [popStack_eq_some] at h₄
  subst h₄
  dsimp only at h
  split_ifs at h with hvch
  · simp at h
  obtain ⟨version, hv⟩ : ∃ v, vch_to_uint64 vch = some v := by
    cases hv : vch_to_uint64 vch with
    | none => simp [hv] at h
    | some v => exact ⟨v, rfl⟩
  simp only [hv, Option.elim_some, Option.some.injEq, Prod.mk.injEq] at h
  obtain ⟨rfl, rfl⟩ := h
  refine ⟨?_, ?_⟩
  · -- the same checks, on the same items, with `L` below
    simp only [parseEthTXParams, h₁', Option.bind_some, List.cons_append, popStack, if_neg hcode]
    rw [h₃', Option.bind_some]
    simp only [if_neg hover, List.cons_append, Option.bind_some, if_neg hvch, hv,
      Option.elim_some]
    rw [if_neg]
    -- the one size check reads a longer stack
    intro hc
    apply hcheck
    simp only [correctedStackSize_eq, List.length_cons, List.length_append] at hc ⊢
    exact ⟨by omega, hc.2⟩
  · -- the pops only shorten the stack
    simp only [List.length_cons] at hle₃ hle₁
    omega

/-- After a successful `receiveStack` from a new converter, the converter holds what the script
pushed but its top item. -/
theorem receiveStack_init_length {nFlags : UInt32} {script : CScript} {c : QtumTxConverter}
    (h : receiveStack nFlags init script = some (true, c)) :
    c.stack.length < evalDepth nFlags script := by
  obtain ⟨⟨b, s⟩, heval, h⟩ := Option.bind_eq_some_iff.mp h
  have heval : EvalScript nFlags [] script = some (b, s) := heval
  rw [evalDepth, heval, Option.map_some, Option.getD_some]
  cases s with
  | nil => simp at h
  | cons scriptRest stack =>
    cases scriptRest with
    | nil => simp at h
    | cons opcode tail =>
      dsimp only at h
      split_ifs at h
      · simp at h
      simp only [Option.some.injEq, Prod.mk.injEq, true_and] at h
      rw [← h, List.length_cons]
      exact Nat.lt_succ_self _

end QtumTxConverter

/-! ## The extraction over leftovers -/

open QtumTxConverter

section Extraction

variable (nFlags : UInt32) (oracleGasPrice : ℕ)

/-- What the scripts of the contract outputs push, counted together. -/
def contractDepth (vout : List CTxOut) : ℕ :=
  ((vout.filter (·.scriptPubKey.IsContractOutput)).map fun out =>
    evalDepth nFlags out.scriptPubKey).sum

/-- A contract output that parses alone parses the same over the items a converter holds, and
leaves them below what it leaves alone, as long as its script's items fit with them. -/
theorem parseOutputAlone_append {script : CScript} {params : EthTransactionParams}
    (hns : script.RunsNoStackOp nFlags = true)
    (h : parseOutputAlone nFlags oracleGasPrice script = some (some params))
    (c : QtumTxConverter) (hsize : c.stack.length + evalDepth nFlags script ≤ MAX_STACK_SIZE) :
    ∃ c' s, receiveStack nFlags c script = some (true, c') ∧
      parseEthTXParams oracleGasPrice c' = some (some (params, s ++ c.stack)) ∧
      s.length < evalDepth nFlags script := by
  rw [parseOutputAlone, Option.bind_eq_some_iff] at h
  obtain ⟨⟨b, c₀⟩, hrecv, h⟩ := h
  cases b with
  | false => simp at h
  | true =>
    obtain ⟨x, hparse, hx⟩ := Option.map_eq_some_iff.mp h
    obtain ⟨⟨p, s⟩, rfl, rfl⟩ := Option.map_eq_some_iff.mp hx
    have hdepth := receiveStack_init_length hrecv
    obtain ⟨hparse', hle⟩ := parseEthTXParams_append c.stack hparse
    refine ⟨{ c₀ with stack := c₀.stack ++ c.stack }, s, ?_, hparse', by omega⟩
    refine receiveStack_append hns hrecv (fun b s' heval => ?_) c (by simp [init])
    -- the items of the script, counted by `evalDepth`, fit with those below
    have hd : evalDepth nFlags script = s'.length := by
      rw [evalDepth, show EvalScript nFlags [] script = some (b, s') from heval]
      rfl
    omega

/-- Over items left below, the loop of the extraction returns what the outputs parsed alone
return, as long as no contract output runs a stack operation and their items fit with those
below in `MAX_STACK_SIZE`. The induction is on the outputs: each contract output adds to the
items below fewer than its script pushes. -/
theorem extractionLoop_of_alone : ∀ (vout : List CTxOut) (c : QtumTxConverter) (i : ℕ)
    (results : List (ℕ × EthTransactionParams)),
    (∀ out ∈ vout, out.scriptPubKey.IsContractOutput = true →
      out.scriptPubKey.RunsNoStackOp nFlags = true) →
    extractAlone nFlags oracleGasPrice i vout = some (some results) →
    c.stack.length + contractDepth nFlags vout ≤ MAX_STACK_SIZE →
    extractionLoop nFlags oracleGasPrice c i vout = some (some results)
  | [], c, i, results, _, h, _ => by
    simp only [extractAlone, Option.some.injEq] at h
    rw [← h]
    rfl
  | out :: vout, c, i, results, hns, h, hsize => by
    have hns' : ∀ out ∈ vout, out.scriptPubKey.IsContractOutput = true →
        out.scriptPubKey.RunsNoStackOp nFlags = true :=
      fun o ho => hns o (List.mem_cons_of_mem _ ho)
    by_cases hcon : out.scriptPubKey.IsContractOutput = true
    · have hdepth : contractDepth nFlags (out :: vout) =
          evalDepth nFlags out.scriptPubKey + contractDepth nFlags vout := by
        simp [contractDepth, hcon]
      rw [extractAlone, if_pos hcon, Option.bind_eq_some_iff] at h
      obtain ⟨x, halone, h⟩ := h
      cases x with
      | none => simp at h
      | some params =>
        obtain ⟨y, hy, hyr⟩ := Option.map_eq_some_iff.mp h
        cases y with
        | none => simp at hyr
        | some rs =>
          simp only [Option.map_some, Option.some.injEq] at hyr
          subst hyr
          obtain ⟨c', s, hrecv, hparse, hlen⟩ :=
            parseOutputAlone_append nFlags oracleGasPrice (hns out List.mem_cons_self hcon) halone
              c (by omega)
          have hrest := extractionLoop_of_alone vout { c' with stack := s ++ c.stack } (i + 1) rs
            hns' hy (by simp only [List.length_append]; omega)
          rw [extractionLoop, if_pos hcon, hrecv, Option.bind_some]
          dsimp only
          rw [hparse, Option.bind_some]
          dsimp only
          rw [hrest]
          rfl
    · have hdepth : contractDepth nFlags (out :: vout) = contractDepth nFlags vout := by
        simp [contractDepth, hcon]
      rw [extractAlone, if_neg hcon] at h
      rw [extractionLoop, if_neg hcon]
      exact extractionLoop_of_alone vout c (i + 1) results hns' h (hdepth ▸ hsize)

end Extraction

/-! ## A sender call, and a call after it -/

/-- The flags of contract scripts from `QIP5Height` on. -/
def contractFlags : UInt32 := SCRIPT_EXEC_BYTE_CODE ||| SCRIPT_OUTPUT_SENDER

/-- The pushes of a call: gas limit `10000`, the one byte `0xab` of code, and a 20-byte contract
address. -/
def callPushes : CScript := [0x02, 0x10, 0x27, 0x01, 0xab, 0x14] ++ List.replicate 20 0xcc

/-- A call with `OP_SENDER`: address type `1`, a 20-byte address and an empty signature, then
version `4` and the call. -/
def senderCallScript : CScript :=
  [OP_1, 0x14] ++ List.replicate 20 0xaa ++ [OP_0, OP_SENDER, 0x01, 0x04] ++ callPushes ++ [OP_CALL]

/-- The call with version `4`, and without a version. -/
def callScript : CScript := [0x01, 0x04] ++ callPushes ++ [OP_CALL]

def callWithoutVersionScript : CScript := callPushes ++ [OP_CALL]

/-- The parameters of the call with a version, at the gas price `40`. -/
def callParams (version : ℕ) : EthTransactionParams :=
  ⟨version, 40, 10000, some (List.replicate 20 0xcc), [0xab], OP_CALL⟩

/-- The sender call leaves its address type, address and empty signature on the stack. The call
after it pushes three items, one short of what `OP_CALL` needs, so alone it is rejected; over
the leftovers its size check passes, and the empty signature is read as its version. -/
theorem extractionQtumTransactions_reads_leftover :
    extractionQtumTransactions contractFlags 40
        ⟨[], [⟨0, senderCallScript⟩, ⟨0, callWithoutVersionScript⟩]⟩ =
      some (some [(0, callParams 4), (1, callParams 0)]) ∧
    extractAlone contractFlags 40 0 [⟨0, senderCallScript⟩, ⟨0, callWithoutVersionScript⟩] =
      some none := by
  decide

/-- `OP_DEPTH` reads the leftovers too: a call whose version `OP_DEPTH` pushes has the version `0`
alone, and `3` after the sender call. -/
example :
    extractionQtumTransactions contractFlags 40
        ⟨[], [⟨0, senderCallScript⟩, ⟨0, OP_DEPTH :: callPushes ++ [OP_CALL]⟩]⟩ =
      some (some [(0, callParams 4), (1, callParams 3)]) ∧
    extractAlone contractFlags 40 0 [⟨0, OP_DEPTH :: callPushes ++ [OP_CALL]⟩] =
      some (some [(0, callParams 0)]) := by
  decide +kernel

end HydraNode
