import HydraNode.Script.Build

/-!
# Parameters of contract scripts

Qtum reads and rewrites the push a fixed number of opcodes before a contract opcode
(`script/script.cpp`): `CScript::FindParam(findOp, posBefore)` returns the data of that push,
and `CScript::ReplaceParam(findOp, posBefore, vchParam)` writes the script again with that push
replaced by a push of `vchParam`. The sender's signature is the push before `OP_SENDER`
(`UpdateSenderSig`, `WithoutSenderSig`), and the contract data is the push before `OP_CREATE`, or
two before `OP_CALL` (`GetData`, `SetData`).

Both loops read from the start up to the first `findOp`, and both record one entry per read, but
differently: `ReplaceParam` records where each opcode starts, with `begin()` first, and
`FindParam` where each one ends, with its data. With `size` entries at the first `findOp`, both
take entry `size - 1 - posBefore` and require `size > posBefore + 1`: the opcode at index `i`
being the first `findOp`, they reach the opcode at index `i - posBefore`, and only when
`posBefore < i`, so the first opcode of a script is never a parameter. Here an iterator is the
suffix of the script from it to the end, and `CScript(begin(), it)` the prefix before it.

A script on which `FindParam` succeeds is a list of whole reads, the first `findOp`, and the rest
(`exists_reads_of_FindParam`). On such a script both functions are computed from the list
(`FindParam_reads`, `ReplaceParam_reads`), and `ReplaceParam` gives again such a script, with one
read changed. Hence, for a `findOp` above `OP_PUSHDATA4` and a parameter shorter than `2 ^ 32`, the
new script reads as the old one with the one element replaced, `FindParam` finds the new
parameter, and replacing again gives what replacing in the old script gives
(`ReplaceParam_exact`). A `findOp` that is itself a push opcode can be the opcode of the new
push, which then becomes the first `findOp` (`ReplaceParam_moves_findOp`).

## Main definitions

* `CScript.FindParam`, `CScript.ReplaceParam` and their loops
* `CScript.UpdateSenderSig`, `CScript.WithoutSenderSig`, `CScript.GetData`, `CScript.SetData`
* `ScriptRead` — a piece of script that one read takes whole

## Main results

* `isSome_FindParam` — `FindParam` and `ReplaceParam` succeed together
* `exists_reads_of_FindParam`, `FindParam_reads`, `ReplaceParam_reads`
* `ReplaceParam_reads_eq_set`, `GetOps_reads_set`, `FindParam_reads_set`,
  `ReplaceParam_reads_set` — replacing changes one read and nothing else
* `ReplaceParam_exact`, `ReplaceParam_moves_findOp`
* `WithoutSenderSig_UpdateSenderSig`, `HasOpSender_UpdateSenderSig` — the sender's signature
  does not change the script without it, nor whether the script has `OP_SENDER`
-/

namespace HydraNode

/-! ## The functions -/

/-- The loop of `CScript::FindParam`: `opcodes` holds, for each opcode read, where it ends and its
data. `pc != end()` needs no test of its own: `GetOp` fails at the end. -/
def findParamLoop (findOp : UInt8) (posBefore : ℤ) (opcodes : List (CScript × valtype))
    (pc : CScript) : Option valtype :=
  match _h : GetOp pc with
  | none => none
  | some (opcode, tmpParam, rest) =>
    let opcodes := opcodes ++ [(rest, tmpParam)]
    if opcode = findOp then
      let size : ℤ := opcodes.length
      if size > posBefore + 1 then
        let position := size - 1 - posBefore
        some (opcodes.getD position.toNat ([], [])).2
      else none
    else findParamLoop findOp posBefore opcodes rest
termination_by pc.length
decreasing_by exact GetOp_length_lt _h

/-- `CScript::FindParam`: the data of the push `posBefore` opcodes before the first `findOp`. -/
def CScript.FindParam (s : CScript) (findOp : UInt8) (posBefore : ℤ) : Option valtype :=
  if posBefore < 0 then none else findParamLoop findOp posBefore [] s

/-- The loop of `CScript::ReplaceParam`: `opcodes` holds where each opcode read starts, `begin()`
first. With `posBefore = 0`, `opcodes[secondPart]` is one past the vector, which C++ leaves
undefined; here it reads as `end()`. -/
def replaceParamLoop (s : CScript) (findOp : UInt8) (posBefore : ℤ) (vchParam : List UInt8)
    (opcodes : List CScript) (pc : CScript) : Option CScript :=
  match _h : GetOp pc with
  | none => none
  | some (opcode, _, rest) =>
    if opcode = findOp then
      let size : ℤ := opcodes.length
      if size > posBefore + 1 then
        let firstPart := size - 1 - posBefore
        let secondPart := size - posBefore
        some (CScript.pushData (s.take (s.length - (opcodes.getD firstPart.toNat []).length))
            vchParam ++ opcodes.getD secondPart.toNat [])
      else none
    else replaceParamLoop s findOp posBefore vchParam (opcodes ++ [rest]) rest
termination_by pc.length
decreasing_by exact GetOp_length_lt _h

/-- `CScript::ReplaceParam`: the script with the push `posBefore` opcodes before the first
`findOp` replaced by a push of `vchParam`; `none` where it returns `false`. -/
def CScript.ReplaceParam (s : CScript) (findOp : UInt8) (posBefore : ℤ) (vchParam : List UInt8) :
    Option CScript :=
  if posBefore < 0 then none else replaceParamLoop s findOp posBefore vchParam [s] s

/-- `CScript::UpdateSenderSig`. -/
def CScript.UpdateSenderSig (s : CScript) (scriptSig : List UInt8) : Option CScript :=
  s.ReplaceParam OP_SENDER 1 scriptSig

/-- `CScript::WithoutSenderSig`: the script with an empty signature, or the script itself. -/
def CScript.WithoutSenderSig (s : CScript) : CScript :=
  (s.UpdateSenderSig []).getD s

/-- `CScript::GetData`. -/
def CScript.GetData (s : CScript) : Option valtype :=
  if s.HasOpCreate then s.FindParam OP_CREATE 1
  else if s.HasOpCall then s.FindParam OP_CALL 2
  else none

/-- `CScript::SetData`. -/
def CScript.SetData (s : CScript) (data : List UInt8) : Option CScript :=
  if s.HasOpCreate then s.ReplaceParam OP_CREATE 1 data
  else if s.HasOpCall then s.ReplaceParam OP_CALL 2 data
  else none

/-! ## The loops, one read at a time -/

theorem findParamLoop_of_none {findOp : UInt8} {posBefore : ℤ} {opcodes : List (CScript × valtype)}
    {pc : CScript} (h : GetOp pc = none) : findParamLoop findOp posBefore opcodes pc = none := by
  rw [findParamLoop]
  split <;> simp_all

theorem findParamLoop_of_some {findOp : UInt8} {posBefore : ℤ}
    {opcodes : List (CScript × valtype)} {pc rest : CScript} {o : UInt8} {d : valtype}
    (h : GetOp pc = some (o, d, rest)) :
    findParamLoop findOp posBefore opcodes pc =
      if o = findOp then
        if (opcodes.length + 1 : ℤ) > posBefore + 1 then
          some ((opcodes ++ [(rest, d)]).getD (opcodes.length - posBefore).toNat ([], [])).2
        else none
      else findParamLoop findOp posBefore (opcodes ++ [(rest, d)]) rest := by
  rw [findParamLoop]
  split
  · simp_all
  · next o' d' rest' h' =>
    rw [h] at h'
    simp only [Option.some.injEq, Prod.mk.injEq] at h'
    obtain ⟨rfl, rfl, rfl⟩ := h'
    simp only [List.length_append, List.length_singleton, Nat.cast_add, Nat.cast_one,
      add_sub_cancel_right]

theorem replaceParamLoop_of_none {s : CScript} {findOp : UInt8} {posBefore : ℤ}
    {vchParam : List UInt8} {opcodes : List CScript} {pc : CScript} (h : GetOp pc = none) :
    replaceParamLoop s findOp posBefore vchParam opcodes pc = none := by
  rw [replaceParamLoop]
  split <;> simp_all

theorem replaceParamLoop_of_some {s : CScript} {findOp : UInt8} {posBefore : ℤ}
    {vchParam : List UInt8} {opcodes : List CScript} {pc rest : CScript} {o : UInt8}
    {d : valtype} (h : GetOp pc = some (o, d, rest)) :
    replaceParamLoop s findOp posBefore vchParam opcodes pc =
      if o = findOp then
        if (opcodes.length : ℤ) > posBefore + 1 then
          some (CScript.pushData
              (s.take (s.length - (opcodes.getD (opcodes.length - 1 - posBefore).toNat []).length))
              vchParam ++ opcodes.getD (opcodes.length - posBefore).toNat [])
        else none
      else replaceParamLoop s findOp posBefore vchParam (opcodes ++ [rest]) rest := by
  rw [replaceParamLoop]
  split
  · simp_all
  · next o' d' rest' h' =>
    rw [h] at h'
    simp only [Option.some.injEq, Prod.mk.injEq] at h'
    obtain ⟨rfl, rfl, rfl⟩ := h'
    rfl

/-- The two loops make the same reads, and at the first `findOp` the same test of the number of
entries: one succeeds exactly when the other does. -/
theorem isSome_findParamLoop {s : CScript} {findOp : UInt8} {posBefore : ℤ}
    {vchParam : List UInt8} :
    ∀ (pc : CScript) (opcodesF : List (CScript × valtype)) (opcodesR : List CScript),
      opcodesR.length = opcodesF.length + 1 →
      (findParamLoop findOp posBefore opcodesF pc).isSome =
        (replaceParamLoop s findOp posBefore vchParam opcodesR pc).isSome := by
  intro pc
  induction hpc : pc.length using Nat.strong_induction_on generalizing pc with
  | _ n ih =>
    intro opcodesF opcodesR hlen
    cases h : GetOp pc with
    | none => rw [findParamLoop_of_none h, replaceParamLoop_of_none h]
    | some r =>
      obtain ⟨o, d, rest⟩ := r
      rw [findParamLoop_of_some h, replaceParamLoop_of_some h, hlen]
      by_cases ho : o = findOp
      · simp only [if_pos ho, Nat.cast_add, Nat.cast_one]
        split_ifs <;> rfl
      · simp only [if_neg ho]
        exact ih rest.length (hpc ▸ GetOp_length_lt h) rest rfl _ _ (by simp [hlen])

/-! ## Scripts as lists of reads -/

/-- A piece of script that one read takes whole, and what the read returns. -/
structure ScriptRead where
  bytes : CScript
  opcode : UInt8
  vch : valtype
  getOp : GetOp bytes = some (opcode, vch, [])

namespace ScriptRead

theorem getOp_append (r : ScriptRead) (t : CScript) :
    GetOp (r.bytes ++ t) = some (r.opcode, r.vch, t) := by
  simpa using GetOp_append r.getOp t

/-- Every read that succeeds takes a `ScriptRead` from the front. -/
theorem exists_of_GetOp {pc rest : CScript} {o : UInt8} {d : valtype}
    (h : GetOp pc = some (o, d, rest)) :
    ∃ r : ScriptRead, pc = r.bytes ++ rest ∧ r.opcode = o ∧ r.vch = d := by
  obtain ⟨pre, rfl, hpre⟩ := exists_eq_append_of_GetOp h
  exact ⟨⟨pre, o, d, hpre⟩, rfl, rfl, rfl⟩

/-- The push of a byte vector whose length fits four bytes. -/
def push (v : List UInt8) (hv : v.length < 2 ^ 32) : ScriptRead :=
  ⟨CScript.pushData [] v, pushOpcode v, v, GetOp_pushData hv⟩

/-- A push is not an opcode above `OP_PUSHDATA4`. -/
theorem push_opcode_ne {v : List UInt8} (hv : v.length < 2 ^ 32) {findOp : UInt8}
    (hop : OP_PUSHDATA4 < findOp) : (push v hv).opcode ≠ findOp :=
  fun h => absurd (h ▸ pushOpcode_le v) (UInt8.not_le.mpr hop)

end ScriptRead

/-- The bytes of a list of reads. -/
def joinReads (rs : List ScriptRead) : CScript := (rs.map ScriptRead.bytes).flatten

@[simp] theorem joinReads_nil : joinReads [] = [] := rfl

@[simp] theorem joinReads_cons (r : ScriptRead) (rs : List ScriptRead) :
    joinReads (r :: rs) = r.bytes ++ joinReads rs := rfl

theorem joinReads_take_append_drop (rs : List ScriptRead) (k : ℕ) :
    joinReads (rs.take k) ++ joinReads (rs.drop k) = joinReads rs := by
  rw [joinReads, joinReads, joinReads, ← List.flatten_append, ← List.map_append,
    List.take_append_drop]

/-- Where each of the reads ends, in a script that goes on with `T` after them: the entries the
loops record. -/
def readEnds (T : CScript) : List ScriptRead → List CScript
  | [] => []
  | _ :: rs => (joinReads rs ++ T) :: readEnds T rs

@[simp] theorem length_readEnds (T : CScript) (rs : List ScriptRead) :
    (readEnds T rs).length = rs.length := by
  induction rs with
  | nil => rfl
  | cons r rs ih => simp [readEnds, ih]

theorem getD_readEnds (T : CScript) :
    ∀ (rs : List ScriptRead) (k : ℕ), k < rs.length →
      (readEnds T rs).getD k [] = joinReads (rs.drop (k + 1)) ++ T
  | [], k, h => absurd h (Nat.not_lt_zero _)
  | r :: rs, 0, _ => rfl
  | r :: rs, k + 1, h => by
    simp only [readEnds, List.getD_cons_succ, List.drop_succ_cons]
    exact getD_readEnds T rs k (by simpa using h)

/-- The reads of a list read one after the other: the loop reads them all and goes on with what
follows. -/
theorem GetOps_joinReads (rs : List ScriptRead) (T : CScript) :
    GetOps (joinReads rs ++ T) =
      (rs.map (fun r => (r.opcode, r.vch)) ++ (GetOps T).1, (GetOps T).2) := by
  induction rs with
  | nil => simp
  | cons r rs ih =>
    rw [joinReads_cons, List.append_assoc, GetOps_of_some (r.getOp_append _), ih]
    simp

/-! ## The loops over a list of reads -/

section reads

variable {findOp : UInt8} {posBefore : ℤ}

/-- The data of the entries `FindParam` records, read back by index. -/
theorem snd_getD_zip_append {α β : Type*} {d : α × β} :
    ∀ {l₁ : List α} {l₂ : List β} {k : ℕ}, l₁.length = l₂.length → k < l₁.length →
      ∀ x : List (α × β), ((l₁.zip l₂ ++ x).getD k d).2 = l₂.getD k d.2
  | [], _, _, _, hk, _ => absurd hk (Nat.not_lt_zero _)
  | _ :: _, [], _, h, _, _ => absurd h (by simp)
  | _ :: _, _ :: _, 0, _, _, _ => rfl
  | _ :: l₁, _ :: l₂, k + 1, h, hk, x => by
    simp only [List.zip_cons_cons, List.cons_append, List.getD_cons_succ]
    exact snd_getD_zip_append (by simpa using h) (by simpa using hk) x

/-- Reads that are not `findOp` only add entries to `FindParam`'s vector. -/
theorem findParamLoop_joinReads {rs : List ScriptRead} (hne : ∀ r ∈ rs, r.opcode ≠ findOp)
    (T : CScript) (opcodes : List (CScript × valtype)) :
    findParamLoop findOp posBefore opcodes (joinReads rs ++ T) =
      findParamLoop findOp posBefore (opcodes ++ (readEnds T rs).zip (rs.map ScriptRead.vch)) T := by
  induction rs generalizing opcodes with
  | nil => simp [readEnds]
  | cons r rs ih =>
    rw [joinReads_cons, List.append_assoc, findParamLoop_of_some (r.getOp_append _),
      if_neg (hne r List.mem_cons_self),
      ih (fun r' h => hne r' (List.mem_cons_of_mem r h))]
    simp [readEnds]

/-- Reads that are not `findOp` only add entries to `ReplaceParam`'s vector. -/
theorem replaceParamLoop_joinReads {s : CScript} {vchParam : List UInt8} {rs : List ScriptRead}
    (hne : ∀ r ∈ rs, r.opcode ≠ findOp) (T : CScript) (opcodes : List CScript) :
    replaceParamLoop s findOp posBefore vchParam opcodes (joinReads rs ++ T) =
      replaceParamLoop s findOp posBefore vchParam (opcodes ++ readEnds T rs) T := by
  induction rs generalizing opcodes with
  | nil => simp [readEnds]
  | cons r rs ih =>
    rw [joinReads_cons, List.append_assoc, replaceParamLoop_of_some (r.getOp_append _),
      if_neg (hne r List.mem_cons_self),
      ih (fun r' h => hne r' (List.mem_cons_of_mem r h))]
    simp [readEnds]

end reads

section decomposition

variable {findOp : UInt8} {rs : List ScriptRead} {F : ScriptRead}

/-- `FindParam` on reads that are not `findOp`, then `findOp`: the data of the read `p` before
it, when there are more than `p` reads. -/
theorem FindParam_reads {p : ℕ} (hp : 1 ≤ p) (hne : ∀ r ∈ rs, r.opcode ≠ findOp)
    (hF : F.opcode = findOp) (post : CScript) :
    (joinReads rs ++ (F.bytes ++ post)).FindParam findOp p =
      if p < rs.length then some ((rs.map ScriptRead.vch).getD (rs.length - p) []) else none := by
  rw [CScript.FindParam, if_neg (by omega), findParamLoop_joinReads hne,
    findParamLoop_of_some (F.getOp_append post), if_pos hF]
  have hlen : ([] ++ (readEnds (F.bytes ++ post) rs).zip (rs.map ScriptRead.vch)).length =
      rs.length := by simp
  rw [hlen]
  by_cases hp : p < rs.length
  · rw [if_pos (by omega), if_pos hp, show ((rs.length : ℤ) - p).toNat = rs.length - p by omega,
      List.nil_append, snd_getD_zip_append (by simp) (by simp; omega)]
  · rw [if_neg (by omega), if_neg hp]

/-- `ReplaceParam` on reads that are not `findOp`, then `findOp`: the reads before the one `p`
before it, a push of the parameter, and everything after that read. -/
theorem ReplaceParam_reads {p : ℕ} (hp : 1 ≤ p) (hne : ∀ r ∈ rs, r.opcode ≠ findOp)
    (hF : F.opcode = findOp) (post vchParam : List UInt8) :
    (joinReads rs ++ (F.bytes ++ post)).ReplaceParam findOp p vchParam =
      if p < rs.length then
        some (CScript.pushData (joinReads (rs.take (rs.length - p))) vchParam ++
          (joinReads (rs.drop (rs.length - p + 1)) ++ (F.bytes ++ post)))
      else none := by
  rw [CScript.ReplaceParam, if_neg (by omega), replaceParamLoop_joinReads hne,
    replaceParamLoop_of_some (F.getOp_append post), if_pos hF]
  rw [List.singleton_append, List.length_cons, length_readEnds]
  by_cases hlt : p < rs.length
  · rw [if_pos (by omega), if_pos hlt]
    -- entry `n - p` starts the read that is replaced, entry `n - p + 1` ends it
    have hfirst : (((rs.length + 1 : ℕ) : ℤ) - 1 - p).toNat = (rs.length - p - 1) + 1 := by omega
    have hsecond : (((rs.length + 1 : ℕ) : ℤ) - p).toNat = (rs.length - p) + 1 := by omega
    rw [hfirst, hsecond, List.getD_cons_succ, List.getD_cons_succ,
      getD_readEnds _ rs _ (by omega), getD_readEnds _ rs _ (by omega),
      show rs.length - p - 1 + 1 = rs.length - p by omega]
    have hsplit : joinReads rs ++ (F.bytes ++ post) =
        joinReads (rs.take (rs.length - p)) ++
          (joinReads (rs.drop (rs.length - p)) ++ (F.bytes ++ post)) := by
      rw [← List.append_assoc (joinReads (rs.take _)), joinReads_take_append_drop]
    rw [hsplit, List.take_left' (by simp)]
  · rw [if_neg (by omega), if_neg hlt]

/-- A script on which `FindParam`'s loop succeeds is whole reads that are not `findOp`, the
first `findOp`, and the rest, with more than `posBefore` entries before `findOp`. -/
theorem exists_reads_of_findParamLoop {posBefore : ℤ} :
    ∀ (pc : CScript) (opcodes : List (CScript × valtype)) (w : valtype),
      findParamLoop findOp posBefore opcodes pc = some w →
      ∃ (rs : List ScriptRead) (F : ScriptRead) (post : CScript),
        pc = joinReads rs ++ (F.bytes ++ post) ∧ (∀ r ∈ rs, r.opcode ≠ findOp) ∧
          F.opcode = findOp ∧ posBefore < opcodes.length + rs.length := by
  intro pc
  induction hpc : pc.length using Nat.strong_induction_on generalizing pc with
  | _ n ih =>
    intro opcodes w hw
    cases h : GetOp pc with
    | none => rw [findParamLoop_of_none h] at hw; cases hw
    | some r =>
      obtain ⟨o, d, rest⟩ := r
      obtain ⟨r, hpc', hro, -⟩ := ScriptRead.exists_of_GetOp h
      rw [findParamLoop_of_some h] at hw
      by_cases ho : o = findOp
      · -- the first `findOp`: no reads before it in this part of the script
        rw [if_pos ho] at hw
        split_ifs at hw with hsize
        exact ⟨[], r, rest, by simpa using hpc', by simp, hro.trans ho, by simp; omega⟩
      · rw [if_neg ho] at hw
        obtain ⟨rs, F, post, hrest, hne, hF, hlt⟩ :=
          ih rest.length (hpc ▸ GetOp_length_lt h) rest rfl _ w hw
        refine ⟨r :: rs, F, post, ?_, ?_, hF, ?_⟩
        · rw [hpc', hrest, joinReads_cons, List.append_assoc]
        · intro r' hr'
          rcases List.mem_cons.mp hr' with rfl | hr'
          · exact hro ▸ ho
          · exact hne r' hr'
        · simp only [List.length_append, List.length_cons, List.length_nil] at hlt ⊢
          omega

theorem exists_reads_of_FindParam {S : CScript} {p : ℕ} (h : (S.FindParam findOp p).isSome) :
    ∃ (rs : List ScriptRead) (F : ScriptRead) (post : CScript),
      S = joinReads rs ++ (F.bytes ++ post) ∧ (∀ r ∈ rs, r.opcode ≠ findOp) ∧
        F.opcode = findOp ∧ p < rs.length := by
  obtain ⟨w, hw⟩ := Option.isSome_iff_exists.mp h
  rw [CScript.FindParam, if_neg (by omega)] at hw
  obtain ⟨rs, F, post, hS, hne, hF, hlt⟩ := exists_reads_of_findParamLoop S [] w hw
  exact ⟨rs, F, post, hS, hne, hF, by simpa using hlt⟩

end decomposition

/-! ## Replacing is exact -/

/-- Replacing the read at `k` by a push: the bytes before it, the push, the bytes after it. -/
theorem joinReads_set {rs : List ScriptRead} {k : ℕ} (hk : k < rs.length) (r : ScriptRead) :
    joinReads (rs.set k r) = joinReads (rs.take k) ++ (r.bytes ++ joinReads (rs.drop (k + 1))) := by
  rw [List.set_eq_take_append_cons_drop, if_pos hk, joinReads, List.map_append, List.flatten_append]
  rfl

section replace

variable {findOp : UInt8} {rs : List ScriptRead} {F : ScriptRead} {p : ℕ}

theorem forall_mem_set_ne (hne : ∀ r ∈ rs, r.opcode ≠ findOp) {r : ScriptRead}
    (hr : r.opcode ≠ findOp) (k : ℕ) : ∀ r' ∈ rs.set k r, r'.opcode ≠ findOp := by
  intro r' h
  rcases List.mem_or_eq_of_mem_set h with h | rfl
  · exact hne r' h
  · exact hr

/-- `ReplaceParam` replaces the read `p` before `findOp` by the push of the parameter. -/
theorem ReplaceParam_reads_eq_set (hp : 1 ≤ p) (hne : ∀ r ∈ rs, r.opcode ≠ findOp)
    (hF : F.opcode = findOp) (hlt : p < rs.length) (post : CScript) {v : List UInt8}
    (hv : v.length < 2 ^ 32) :
    (joinReads rs ++ (F.bytes ++ post)).ReplaceParam findOp p v =
      some (joinReads (rs.set (rs.length - p) (ScriptRead.push v hv)) ++ (F.bytes ++ post)) := by
  rw [ReplaceParam_reads hp hne hF, if_pos hlt, joinReads_set (by omega),
    CScript.pushData_eq_append]
  simp [ScriptRead.push]

/-- Changing the read `p` before `findOp` to another that is not `findOp` changes nothing
`ReplaceParam` keeps. -/
theorem ReplaceParam_reads_set (hp : 1 ≤ p) (hne : ∀ r ∈ rs, r.opcode ≠ findOp)
    (hF : F.opcode = findOp) (post : CScript) {r : ScriptRead} (hr : r.opcode ≠ findOp)
    (x : List UInt8) :
    (joinReads (rs.set (rs.length - p) r) ++ (F.bytes ++ post)).ReplaceParam findOp p x =
      (joinReads rs ++ (F.bytes ++ post)).ReplaceParam findOp p x := by
  rw [ReplaceParam_reads hp (forall_mem_set_ne hne hr _) hF, ReplaceParam_reads hp hne hF,
    List.length_set, List.take_set_of_le le_rfl, List.drop_set_of_lt (Nat.lt_succ_self _)]

/-- After the change, `FindParam` finds the new read's data. -/
theorem FindParam_reads_set (hp : 1 ≤ p) (hne : ∀ r ∈ rs, r.opcode ≠ findOp)
    (hF : F.opcode = findOp) (hlt : p < rs.length) (post : CScript) {r : ScriptRead}
    (hr : r.opcode ≠ findOp) :
    (joinReads (rs.set (rs.length - p) r) ++ (F.bytes ++ post)).FindParam findOp p =
      some r.vch := by
  rw [FindParam_reads hp (forall_mem_set_ne hne hr _) hF, List.length_set, if_pos hlt,
    List.map_set]
  simp [List.getD_eq_getElem?_getD, show rs.length - p < rs.length by omega]

/-- After the change, the script reads as before, with the one element changed. -/
theorem GetOps_reads_set (hp : 1 ≤ p) (hne : ∀ r ∈ rs, r.opcode ≠ findOp)
    (hF : F.opcode = findOp) (hlt : p < rs.length) (post : CScript) (r : ScriptRead) :
    GetOps (joinReads (rs.set (rs.length - p) r) ++ (F.bytes ++ post)) =
      ((GetOps (joinReads rs ++ (F.bytes ++ post))).1.set
        (((GetOps (joinReads rs ++ (F.bytes ++ post))).1.map Prod.fst).idxOf findOp - p)
        (r.opcode, r.vch), (GetOps (joinReads rs ++ (F.bytes ++ post))).2) := by
  -- the first `findOp` is the read after `rs`
  have hnot : findOp ∉ rs.map ScriptRead.opcode := by simpa using hne
  have hidx : ((rs.map (fun r => (r.opcode, r.vch)) ++ (GetOps (F.bytes ++ post)).1).map
      Prod.fst).idxOf findOp = rs.length := by
    rw [GetOps_of_some (F.getOp_append post)]
    simp only [List.map_append, List.map_map, List.map_cons, Function.comp_def, hF,
      List.idxOf_append, List.idxOf_cons_self, List.length_map]
    rw [if_neg (by simpa [Function.comp_def] using hnot)]
    simp
  rw [GetOps_joinReads, GetOps_joinReads, hidx,
    List.set_append_left (rs.length - p) _ (by simp; omega), List.map_set]

end replace

/-- For a `findOp` that is not a push opcode, and a script and parameter that stay below `2 ^ 31`
bytes, below which `prevector<28, unsigned char>` holds the script (`WriteLE32` then also keeps the
whole length): where `FindParam` succeeds, `ReplaceParam` succeeds, the new script reads as
the old one with the one element replaced by the push, `FindParam` finds the new parameter, and
replacing again gives what replacing in the old script gives. -/
theorem ReplaceParam_exact :
    ∀ (S : CScript) (findOp : UInt8) (p : ℕ) (v : List UInt8), 1 ≤ p → OP_PUSHDATA4 < findOp →
      S.length + v.length + 5 < 2 ^ 31 → (S.FindParam findOp p).isSome →
      ∃ S', S.ReplaceParam findOp p v = some S' ∧
        GetOps S' = ((GetOps S).1.set (((GetOps S).1.map Prod.fst).idxOf findOp - p)
          (pushOpcode v, v), (GetOps S).2) ∧
        S'.FindParam findOp p = some v ∧
        ∀ x, S'.ReplaceParam findOp p x = S.ReplaceParam findOp p x := by
  intro S findOp p v hp hop hsize hfind
  have hv : v.length < 2 ^ 32 := by omega
  obtain ⟨rs, F, post, rfl, hne, hF, hlt⟩ := exists_reads_of_FindParam hfind
  -- the push is not `findOp`, which lies above every push opcode
  have hpush := ScriptRead.push_opcode_ne hv hop
  exact ⟨_, ReplaceParam_reads_eq_set hp hne hF hlt post hv,
    GetOps_reads_set hp hne hF hlt post _, FindParam_reads_set hp hne hF hlt post hpush,
    fun x => ReplaceParam_reads_set hp hne hF post hpush x⟩

theorem ReplaceParam_exact_sender :
    CScript.FindParam [0x00, 0x01, 7, OP_SENDER] OP_SENDER (1 : ℕ) = some [7] ∧
      ∃ S', CScript.ReplaceParam [0x00, 0x01, 7, OP_SENDER] OP_SENDER (1 : ℕ) [1, 2] = some S' ∧
        GetOps S' = ([(0x00, []), (0x02, [1, 2]), (OP_SENDER, [])], []) ∧
        S'.FindParam OP_SENDER (1 : ℕ) = some [1, 2] ∧
        ∀ x, S'.ReplaceParam OP_SENDER (1 : ℕ) x =
          CScript.ReplaceParam [0x00, 0x01, 7, OP_SENDER] OP_SENDER (1 : ℕ) x := by
  have hfind : CScript.FindParam [0x00, 0x01, 7, OP_SENDER] OP_SENDER (1 : ℕ) = some [7] := by
    decide +kernel
  obtain ⟨S', hS', hops, hfind', hrep⟩ := ReplaceParam_exact [0x00, 0x01, 7, OP_SENDER] OP_SENDER 1
    [1, 2] le_rfl (by decide) (by decide) (by rw [hfind]; rfl)
  refine ⟨hfind, S', hS', ?_, hfind', hrep⟩
  rw [hops]
  decide +kernel

/-- A `findOp` that is a push opcode: the new push can be `findOp` itself and come first. In
`00 01 07 02 08 09` the first `02` is at index `2`, and the parameter one before it is `[7]`;
replacing it with `[1, 2]`, pushed as `02 01 02`, puts a `02` at index `1`, too early for
`FindParam`. -/
theorem ReplaceParam_moves_findOp :
    CScript.FindParam [0x00, 0x01, 7, 0x02, 8, 9] 0x02 1 = some [7] ∧
      CScript.ReplaceParam [0x00, 0x01, 7, 0x02, 8, 9] 0x02 1 [1, 2] =
        some [0x00, 0x02, 1, 2, 0x02, 8, 9] ∧
      CScript.FindParam [0x00, 0x02, 1, 2, 0x02, 8, 9] 0x02 1 = none := by
  decide +kernel

/-! ## The sender's signature -/

/-- `FindParam` and `ReplaceParam` succeed together. -/
theorem isSome_FindParam (S : CScript) (findOp : UInt8) (posBefore : ℤ) (v : List UInt8) :
    (S.FindParam findOp posBefore).isSome = (S.ReplaceParam findOp posBefore v).isSome := by
  unfold CScript.FindParam CScript.ReplaceParam
  split_ifs
  · rfl
  · exact isSome_findParamLoop S [] [S] rfl

/-- The sender's signature is not part of the script without it: replacing it by any signature
whose length fits four bytes leaves `WithoutSenderSig` as it was. -/
theorem WithoutSenderSig_UpdateSenderSig {S S' : CScript} {sig : List UInt8}
    (hsig : sig.length < 2 ^ 32) (h : S.UpdateSenderSig sig = some S') :
    S'.WithoutSenderSig = S.WithoutSenderSig := by
  have hfind : (S.FindParam OP_SENDER ((1 : ℕ) : ℤ)).isSome := by
    rw [isSome_FindParam S OP_SENDER _ sig, Nat.cast_one]
    exact Option.isSome_iff_exists.mpr ⟨S', h⟩
  obtain ⟨rs, F, post, rfl, hne, hF, hlt⟩ := exists_reads_of_FindParam hfind
  have hpush := ScriptRead.push_opcode_ne hsig (show OP_PUSHDATA4 < OP_SENDER by decide)
  have hS' := ReplaceParam_reads_eq_set le_rfl hne hF hlt post hsig
  rw [Nat.cast_one] at hS'
  rw [CScript.UpdateSenderSig, hS', Option.some.injEq] at h
  subst h
  have hrep := ReplaceParam_reads_set le_rfl hne hF post hpush []
  rw [Nat.cast_one] at hrep
  -- the script without the signature exists, and is the same for both
  obtain ⟨y, hy⟩ := Option.isSome_iff_exists.mp
    ((isSome_FindParam _ OP_SENDER _ []).symm.trans hfind)
  rw [Nat.cast_one] at hy
  simp only [CScript.WithoutSenderSig, CScript.UpdateSenderSig, hrep, hy, Option.getD_some]

/-- Reads that are not `op` do not count for `Find`. -/
theorem Find_joinReads {op : UInt8} {rs : List ScriptRead} (hne : ∀ r ∈ rs, r.opcode ≠ op)
    (T : CScript) : (joinReads rs ++ T).Find op = T.Find op := by
  have hzero : ((rs.map fun r => (r.opcode, r.vch)).map Prod.fst).count op = 0 := by
    rw [List.count_eq_zero]
    simpa using hne
  rw [CScript.Find_eq_count, CScript.Find_eq_count, GetOps_joinReads, List.map_append,
    List.count_append, hzero, Nat.zero_add]

/-- Replacing the signature keeps the script an `OP_SENDER` script: `HasOpSender` counts the
`OP_SENDER` opcodes, and the replaced push and the new one are not `OP_SENDER`. -/
theorem HasOpSender_UpdateSenderSig {S S' : CScript} {sig : List UInt8}
    (hsig : sig.length < 2 ^ 32) (h : S.UpdateSenderSig sig = some S') :
    S'.HasOpSender = S.HasOpSender := by
  have hfind : (S.FindParam OP_SENDER ((1 : ℕ) : ℤ)).isSome := by
    rw [isSome_FindParam S OP_SENDER _ sig, Nat.cast_one]
    exact Option.isSome_iff_exists.mpr ⟨S', h⟩
  obtain ⟨rs, F, post, rfl, hne, hF, hlt⟩ := exists_reads_of_FindParam hfind
  have hS' := ReplaceParam_reads_eq_set le_rfl hne hF hlt post hsig
  rw [Nat.cast_one] at hS'
  rw [CScript.UpdateSenderSig, hS', Option.some.injEq] at h
  subst h
  have hpush := ScriptRead.push_opcode_ne hsig (show OP_PUSHDATA4 < OP_SENDER by decide)
  simp only [CScript.HasOpSender, Find_joinReads (forall_mem_set_ne hne hpush _),
    Find_joinReads hne]

end HydraNode
