import HydraNode.Lib.Loop

/-!
# Readers and writers of streams

A reader takes a stream and returns the value it read and the rest of the stream, or an error;
a writer turns a value into what it writes. `IsCodec write read P` says that the reader accepts
exactly the streams that start with what the writer writes of a value satisfying `P`, and then
returns that value and the rest. Both halves matter: from right to left it is the round trip,
from left to right it says that the reader accepts no other spelling of a value and no value
outside `P`.

Codecs compose. A step of a reader that runs a codec can be replaced by the shape of the stream
it accepts (`IsCodec.bind_eq_ok_iff`); a fixed number of values one after the other is a codec
(`IsCodec.readMany`), and so is a count followed by that many values (`IsCodec.readCounted`).

## Main definitions

* `IsCodec`
* `readMany`, `readCounted`

## Main results

* `IsCodec.bind_eq_ok_iff` — a reader that runs a codec first
* `IsCodec.readMany`, `IsCodec.readCounted` — lists of values
-/

namespace Codec

open HydraNode (except_bind_eq_ok_iff)

variable {ε β α γ : Type}

/-- `read` accepts exactly the streams that start with `write a` for an `a` satisfying `P`, and
then returns `a` and the rest. -/
def IsCodec (write : α → List β) (read : List β → Except ε (α × List β)) (P : α → Prop) : Prop :=
  ∀ s a rest, read s = .ok (a, rest) ↔ P a ∧ s = write a ++ rest

section IsCodec

variable {write : α → List β} {read : List β → Except ε (α × List β)} {P : α → Prop}

theorem IsCodec.read_write (h : IsCodec write read P) {a : α} (ha : P a) (rest : List β) :
    read (write a ++ rest) = .ok (a, rest) :=
  (h _ a rest).mpr ⟨ha, rfl⟩

theorem IsCodec.eq_of_read (h : IsCodec write read P) {s rest : List β} {a : α}
    (hr : read s = .ok (a, rest)) : P a ∧ s = write a ++ rest :=
  (h s a rest).mp hr

/-- A reader that runs a codec first succeeds exactly when the stream starts with what the codec
writes of a value in its domain, and the rest of the reader succeeds on what follows. -/
theorem IsCodec.bind_eq_ok_iff (h : IsCodec write read P) {s : List β}
    {f : α × List β → Except ε γ} {c : γ} :
    read s >>= f = .ok c ↔ ∃ a s', P a ∧ s = write a ++ s' ∧ f (a, s') = .ok c := by
  rw [except_bind_eq_ok_iff]
  constructor
  · rintro ⟨⟨a, s'⟩, hr, hf⟩
    obtain ⟨ha, rfl⟩ := h.eq_of_read hr
    exact ⟨a, s', ha, rfl, hf⟩
  · rintro ⟨a, s', ha, rfl, hf⟩
    exact ⟨(a, s'), h.read_write ha s', hf⟩

end IsCodec

/-! ## Lists of values -/

/-- `n` values read one after the other. -/
def readMany (read : List β → Except ε (α × List β)) : ℕ → List β → Except ε (List α × List β)
  | 0, s => .ok ([], s)
  | n + 1, s => do
    let (a, s) ← read s
    let (as, s) ← readMany read n s
    pure (a :: as, s)

/-- A count, then that many values. -/
def readCounted (readCount : List β → Except ε (ℕ × List β))
    (read : List β → Except ε (α × List β)) (s : List β) : Except ε (List α × List β) := do
  let (n, s) ← readCount s
  readMany read n s

section Lists

variable {write : α → List β} {read : List β → Except ε (α × List β)} {P : α → Prop}

theorem IsCodec.readMany (h : IsCodec write read P) (n : ℕ) :
    IsCodec (fun l => l.flatMap write) (Codec.readMany read n)
      (fun l => l.length = n ∧ ∀ a ∈ l, P a) := by
  induction n with
  | zero =>
    intro s l rest
    simp only [Codec.readMany, Except.ok.injEq, Prod.mk.injEq, List.length_eq_zero_iff]
    constructor
    · rintro ⟨rfl, rfl⟩
      simp
    · rintro ⟨⟨rfl, -⟩, rfl⟩
      simp
  | succ n ih =>
    intro s l rest
    simp only [Codec.readMany]
    rw [h.bind_eq_ok_iff]
    constructor
    · rintro ⟨a, s₁, ha, rfl, hr⟩
      obtain ⟨⟨as, s₂⟩, h₂, hr⟩ := except_bind_eq_ok_iff.mp hr
      obtain ⟨⟨hlen, has⟩, rfl⟩ := (ih _ _ _).mp h₂
      cases hr
      refine ⟨⟨by rw [List.length_cons, hlen], ?_⟩, by rw [List.flatMap_cons, List.append_assoc]⟩
      intro x hx
      rcases List.mem_cons.mp hx with rfl | hx
      · exact ha
      · exact has x hx
    · rintro ⟨⟨hlen, hl⟩, rfl⟩
      obtain ⟨a, as, rfl⟩ := List.exists_cons_of_length_eq_add_one hlen
      refine ⟨a, as.flatMap write ++ rest, hl a (List.mem_cons_self ..),
        by rw [List.flatMap_cons, List.append_assoc], ?_⟩
      rw [(ih _ _ _).mpr ⟨⟨by simpa using hlen, fun x hx => hl x (List.mem_cons_of_mem a hx)⟩, rfl⟩]
      rfl

theorem IsCodec.readCounted {writeCount : ℕ → List β} {readCount : List β → Except ε (ℕ × List β)}
    {Q : ℕ → Prop} (hc : IsCodec writeCount readCount Q) (h : IsCodec write read P) :
    IsCodec (fun l => writeCount l.length ++ l.flatMap write) (Codec.readCounted readCount read)
      (fun l => Q l.length ∧ ∀ a ∈ l, P a) := by
  intro s l rest
  rw [Codec.readCounted, hc.bind_eq_ok_iff]
  constructor
  · rintro ⟨n, s₁, hn, rfl, hr⟩
    obtain ⟨⟨rfl, hl⟩, rfl⟩ := (h.readMany n _ _ _).mp hr
    exact ⟨⟨hn, hl⟩, by rw [List.append_assoc]⟩
  · rintro ⟨⟨hn, hl⟩, rfl⟩
    exact ⟨l.length, l.flatMap write ++ rest, hn, by rw [List.append_assoc],
      (h.readMany _ _ _ _).mpr ⟨⟨rfl, hl⟩, rfl⟩⟩

end Lists

end Codec
