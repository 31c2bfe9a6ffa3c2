import HydraNode.Util.Prevector
import HydraNode.Script.Build

/-!
# Scripts in a `prevector`

`CScript` derives from `CScriptBase`, a `prevector<28, unsigned char>` (`script.h`), and
`operator<<` of a byte vector pushes it with `insert(end(), ...)` of the length prefix and then
of the bytes. The scripts of the other modules are lists of bytes, `CScript.pushData` the push.
Below `2 ^ 31` bytes this is what the `prevector` does: a vector that holds a script holds the
script with the push after `operator<<` (`prevector.pushDataBase_spec`). Above, the `size_type`
arithmetic of the `prevector` shows: the growth of a script of `3 · 2 ^ 30 + 5` bytes wraps, and
pushing `3 · 2 ^ 30` bytes into an empty script writes past the end of the heap array it
reallocates (`prevector.pushDataBase_wraps`).
-/

namespace HydraNode

/-- `CScriptBase`: `prevector<28, unsigned char>`. -/
abbrev CScriptBase : Type := prevector 28 UInt8

namespace prevector

variable {N : ℕ} {T : Type}

/-- `insert(end(), first, last)` appends the values. -/
theorem insertRange_end_spec (hN : N < 2 ^ 31) {v : prevector N T} {l : List T} (h : v.Holds l)
    (values : List T) (hsmall : l.length + values.length < 2 ^ 31) :
    ∃ v', v.insertRange v.size values = .ok v' ∧ v'.Holds (l ++ values) := by
  obtain ⟨v', hins, hv', hl'⟩ :=
    insertRange_spec hN h.inv h.toList_eq (le_refl l.length) values hsmall
  rw [List.take_length, List.drop_length, List.append_nil] at hl'
  rw [← length_toList h.toList_eq]
  exact ⟨v', hins, hv', hl', by simpa using hsmall⟩

/-- The rule for an `insert(end(), first, last)` followed by more: what follows runs on a vector
that holds the values appended. -/
theorem insertRange_end_bind (hN : N < 2 ^ 31) {v : prevector N T} {l : List T} (h : v.Holds l)
    (values : List T) (hsmall : l.length + values.length < 2 ^ 31)
    {f : prevector N T → Except String (prevector N T)} {P : prevector N T → Prop}
    (hf : ∀ w, w.Holds (l ++ values) → ∃ w', f w = .ok w' ∧ P w') :
    ∃ w', (v.insertRange v.size values >>= f) = .ok w' ∧ P w' := by
  obtain ⟨w, hw, hwh⟩ := insertRange_end_spec hN h values hsmall
  obtain ⟨w', hfw, hP⟩ := hf w hwh
  exact ⟨w', by rw [hw, except_ok_bind]; exact hfw, hP⟩

/-- `CScript::operator<<(const std::vector<unsigned char>&)` on the `prevector`:
`insert(end(), ...)` of the push opcode and the length, then of the bytes. -/
def pushDataBase (v : CScriptBase) (b : List UInt8) : Except String CScriptBase := do
  let v ←
    if b.length < OP_PUSHDATA1.toNat then v.insert v.size (UInt8.ofNat b.length)
    else if b.length ≤ 0xff then do
      let v ← v.insert v.size OP_PUSHDATA1
      v.insert v.size (UInt8.ofNat b.length)
    else if b.length ≤ 0xffff then do
      let v ← v.insert v.size OP_PUSHDATA2
      v.insertRange v.size (writeLE 2 b.length)
    else do
      let v ← v.insert v.size OP_PUSHDATA4
      v.insertRange v.size (writeLE 4 b.length)
  v.insertRange v.size b

/-- The refinement: below `2 ^ 31` bytes, `operator<<` on a `prevector` that holds a script
succeeds and holds the script with the push, `CScript.pushData`. -/
theorem pushDataBase_spec {v : CScriptBase} {s : CScript} (h : v.Holds s) (b : List UInt8)
    (hsmall : s.length + b.length + 5 < 2 ^ 31) :
    ∃ v', v.pushDataBase b = .ok v' ∧ v'.Holds (s.pushData b) := by
  have hN : (28 : ℕ) < 2 ^ 31 := by norm_num
  -- one case per length prefix, each an `insert(end(), ...)` after the other
  rw [pushDataBase, CScript.pushData]
  -- the bytes after a length prefix of at most five bytes
  have hlast : ∀ w : CScriptBase, ∀ pre, w.Holds (s ++ pre) →
      s.length + pre.length ≤ s.length + 5 →
      ∃ v', w.insertRange w.size b = .ok v' ∧ v'.Holds (s ++ pre ++ b) := fun w pre hw hpre =>
    insertRange_end_spec hN hw b (by simp only [List.length_append]; omega)
  split_ifs with hlt h255 h65535
  · exact insertRange_end_bind hN h [UInt8.ofNat b.length] (by simp; omega)
      fun w₁ h₁ => hlast w₁ _ h₁ (by simp)
  · refine insertRange_end_bind hN h [OP_PUSHDATA1] (by simp; omega) fun w₁ h₁ => ?_
    refine insertRange_end_bind hN h₁ [UInt8.ofNat b.length] (by simp; omega) fun w₂ h₂ => ?_
    simpa using hlast w₂ [OP_PUSHDATA1, UInt8.ofNat b.length] (by simpa using h₂) (by simp)
  · refine insertRange_end_bind hN h [OP_PUSHDATA2] (by simp; omega) fun w₁ h₁ => ?_
    refine insertRange_end_bind hN h₁ (writeLE 2 b.length) (by simp [writeLE]; omega)
      fun w₂ h₂ => ?_
    simpa using hlast w₂ (OP_PUSHDATA2 :: writeLE 2 b.length) (by simpa using h₂)
      (by simp [writeLE])
  · refine insertRange_end_bind hN h [OP_PUSHDATA4] (by simp; omega) fun w₁ h₁ => ?_
    refine insertRange_end_bind hN h₁ (writeLE 4 b.length) (by simp [writeLE]; omega)
      fun w₂ h₂ => ?_
    simpa using hlast w₂ (OP_PUSHDATA4 :: writeLE 4 b.length) (by simpa using h₂)
      (by simp [writeLE])

/-- Pushing `3 · 2 ^ 30` bytes into an empty script: after the five bytes of `OP_PUSHDATA4` and
the length, `insert(end(), b.begin(), b.end())` grows the capacity to
`(3 · 2 ^ 30 + 5) · 3 / 2`, which wraps in `size_type` to `2 ^ 29 + 7`, and the bytes are moved to
a position past the end of that array. -/
theorem pushDataBase_wraps :
    (empty : CScriptBase).pushDataBase (List.replicate (3 * 2 ^ 30) 0) =
      .error "memmove out of bounds" := by
  have hlen : (List.replicate (3 * 2 ^ 30) (0 : UInt8)).length = 3 * 2 ^ 30 :=
    List.length_replicate
  -- `OP_PUSHDATA4` and the four bytes of the length fill five slots of direct storage
  let header : List UInt8 := [OP_PUSHDATA4, 0, 0, 0, 0xc0]
  let w₁ : CScriptBase := ⟨1, some OP_PUSHDATA4 :: List.replicate 27 none, 0, []⟩
  let w : CScriptBase := ⟨5, header.map some ++ List.replicate 23 none, 0, []⟩
  have hw₁ : (empty : CScriptBase).insert (empty : CScriptBase).size OP_PUSHDATA4 = .ok w₁ :=
    rfl
  have hw : w₁.insertRange w₁.size (writeLE 4 (3 * 2 ^ 30)) = .ok w := by
    have hgrow : w₁.grow (toSizeType (w₁.size + 4)) = .ok w₁ := rfl
    rw [insertRange, show (writeLE 4 (3 * 2 ^ 30)).length = 4 from rfl, hgrow, except_ok_bind]
    dsimp only
    -- the tail after the opcode is empty: `size() - p` is `0`
    rw [show w₁.size = 1 from rfl, show subSizeType 1 1 = 0 by decide]
    rfl
  have hinv : w.Inv := ⟨rfl, by norm_num, rfl, fun h => absurd h (by decide)⟩
  rw [pushDataBase, hlen, if_neg (by decide), if_neg (by decide), if_neg (by decide), hw₁,
    except_ok_bind, hw, except_ok_bind]
  show w.insertRange header.length _ = _
  exact insertRange_of_wrap hinv rfl rfl (by norm_num) (by rw [hlen]; norm_num)
    (by rw [hlen]; norm_num [toSizeType]) (by rw [hlen]; norm_num [toSizeType])

end prevector
end HydraNode
