import Mathlib

/-!
# Little-endian limbs

A number held as a list of limbs, least significant first, each below the base `B`, has the
value `Nat.ofDigits B`. This module collects what the arithmetic loops over such lists need,
whatever the limb type:

* `carryLoop` visits the limbs from the bottom, produces one limb for each and passes a carry
  up. Its value lemma `carryLoop_value` turns the identity of one step,
  `digit + B * carry' = input + carry`, into the identity of the whole loop, with the carry
  that leaves the top.
* For a base `2 ^ w`, bit `n` of the value is bit `n % w` of limb `n / w`
  (`testBit_ofDigits`): the shifts, the bit length and the setting of a single bit are proved
  limb by limb through it.
* Two numbers of the same number of limbs compare as their top limbs do, when these differ
  (`add_mul_lt_add_mul`), and the bit length of a number is read off its top nonzero limb
  (`size_add_two_pow_mul`).
* A loop that only ever ORs bits into its state has set a bit at its end iff the bit was set at
  the start or one of its passes set it (`foldl_range_accum`); for 32-bit limbs, ORing a word
  into one limb is read back bit by bit by `testBit_getD_modify_or`.
-/

namespace Limbs

variable {α β γ : Type*}

/-- Visit the limbs from the bottom, producing one limb each and passing a carry up. -/
def carryLoop (step : γ → α → β × γ) : γ → List α → List β × γ
  | c, [] => ([], c)
  | c, a :: as =>
    let r := step c a
    let rest := carryLoop step r.2 as
    (r.1 :: rest.1, rest.2)

@[simp] theorem length_carryLoop (step : γ → α → β × γ) :
    ∀ (c : γ) (l : List α), (carryLoop step c l).1.length = l.length
  | _, [] => rfl
  | c, _ :: as => by simp [carryLoop, length_carryLoop step _ as]

/-- The value of a carry loop: what it writes, and the carry that leaves the top, make up what
it read and the carry it started with. The identity of one step need only hold for the carries
`inv` admits, and each step must keep `inv`. -/
theorem carryLoop_value (B : ℕ) (step : γ → α → β × γ) (out : β → ℕ) (inp : α → ℕ)
    (val : γ → ℕ) (inv : γ → Prop) (hinv : ∀ c a, inv c → inv (step c a).2)
    (hstep : ∀ c a, inv c → out (step c a).1 + B * val (step c a).2 = inp a + val c) :
    ∀ (c : γ) (l : List α), inv c →
      Nat.ofDigits B ((carryLoop step c l).1.map out) + B ^ l.length * val (carryLoop step c l).2 =
        Nat.ofDigits B (l.map inp) + val c
  | c, [], _ => by simp [carryLoop]
  | c, a :: as, hc => by
    have ih := carryLoop_value B step out inp val inv hinv hstep (step c a).2 as (hinv c a hc)
    have h := hstep c a hc
    simp only [carryLoop, List.map_cons, Nat.ofDigits_cons, List.length_cons, pow_succ] at ih ⊢
    calc out (step c a).1 + B * Nat.ofDigits B ((carryLoop step (step c a).2 as).1.map out) +
          B ^ as.length * B * val (carryLoop step (step c a).2 as).2
        = out (step c a).1 + B * (Nat.ofDigits B ((carryLoop step (step c a).2 as).1.map out) +
            B ^ as.length * val (carryLoop step (step c a).2 as).2) := by ring
      _ = out (step c a).1 + B * val (step c a).2 + B * Nat.ofDigits B (as.map inp) := by
          rw [ih]; ring
      _ = inp a + B * Nat.ofDigits B (as.map inp) + val c := by rw [h]; ring

/-! ### Values of lists built limb by limb -/

/-- Two numbers read limb by limb side by side: the limbs of the sum are the sums of the limbs,
over the shorter of the two lists. -/
theorem ofDigits_map_zip_add (B : ℕ) (f : α → ℕ) (g : β → ℕ) :
    ∀ (l₁ : List α) (l₂ : List β), l₁.length ≤ l₂.length →
      Nat.ofDigits B ((l₁.zip l₂).map fun x => f x.1 + g x.2) =
        Nat.ofDigits B (l₁.map f) + Nat.ofDigits B ((l₂.take l₁.length).map g)
  | [], _, _ => by simp
  | _ :: _, [], h => by simp at h
  | a :: as, b :: bs, h => by
    have ih := ofDigits_map_zip_add B f g as bs (by simpa using h)
    simp only [List.zip_cons_cons, List.map_cons, Nat.ofDigits_cons, List.length_cons,
      List.take_succ_cons, ih]
    ring

theorem ofDigits_map_mul_left (B c : ℕ) (f : α → ℕ) :
    ∀ l : List α, Nat.ofDigits B (l.map fun x => c * f x) = c * Nat.ofDigits B (l.map f)
  | [] => by simp
  | a :: as => by
    simp only [List.map_cons, Nat.ofDigits_cons, ofDigits_map_mul_left B c f as]
    ring

/-- Complementing every limb complements the number. -/
theorem ofDigits_map_complement_add {B : ℕ} (hB : 0 < B) :
    ∀ l : List ℕ, (∀ x ∈ l, x < B) →
      Nat.ofDigits B (l.map fun x => B - 1 - x) + Nat.ofDigits B l = B ^ l.length - 1
  | [], _ => by simp
  | x :: xs, hl => by
    have hx : x < B := hl x List.mem_cons_self
    have ih := ofDigits_map_complement_add hB xs fun y hy => hl y (List.mem_cons_of_mem x hy)
    have hpow : 1 ≤ B ^ xs.length := Nat.one_le_pow _ _ hB
    simp only [List.map_cons, Nat.ofDigits_cons, List.length_cons, pow_succ]
    calc B - 1 - x + B * Nat.ofDigits B (xs.map fun x => B - 1 - x) + (x + B * Nat.ofDigits B xs)
        = B - 1 + B * (Nat.ofDigits B (xs.map fun x => B - 1 - x) + Nat.ofDigits B xs) := by
          rw [Nat.mul_add]; omega
      _ = B - 1 + B * (B ^ xs.length - 1) := by rw [ih]
      _ = B ^ xs.length * B - 1 := by
          rw [Nat.mul_sub, Nat.mul_one, mul_comm B]
          have : B ≤ B ^ xs.length * B := Nat.le_mul_of_pos_left B hpow
          omega

/-- The value of the first `n + 1` limbs. -/
theorem ofDigits_take_succ (B : ℕ) {l : List ℕ} {n : ℕ} (h : n < l.length) :
    Nat.ofDigits B (l.take (n + 1)) = Nat.ofDigits B (l.take n) + B ^ n * l[n] := by
  rw [List.take_succ_eq_append_getElem h, Nat.ofDigits_append, Nat.ofDigits_singleton,
    List.length_take, min_eq_left h.le]

/-- Bit `n` of a number in base `2 ^ w` is bit `n % w` of its limb `n / w`. -/
theorem testBit_ofDigits {w : ℕ} (hw : 0 < w) :
    ∀ (L : List ℕ), (∀ x ∈ L, x < 2 ^ w) →
      ∀ n, (Nat.ofDigits (2 ^ w) L).testBit n = (L.getD (n / w) 0).testBit (n % w)
  | [], _, n => by simp
  | x :: xs, hL, n => by
    have hx : x < 2 ^ w := hL x List.mem_cons_self
    rw [Nat.ofDigits_cons, add_comm, Nat.testBit_two_pow_mul_add _ hx]
    split_ifs with hn
    · rw [Nat.div_eq_of_lt hn, Nat.mod_eq_of_lt hn]
      rfl
    · -- above the bottom limb, the bits are those of the rest, one limb lower
      obtain ⟨m, rfl⟩ : ∃ m, n = w + m := ⟨n - w, by omega⟩
      rw [testBit_ofDigits hw xs (fun y hy => hL y (List.mem_cons_of_mem x hy)),
        Nat.add_sub_cancel_left, Nat.add_div_left _ hw, Nat.add_mod_left]
      rfl

/-- The top limbs decide between two numbers of the same length when they differ: below a
place value `P`, `A + P * x < C + P * y` once `x < y`. -/
theorem add_mul_lt_add_mul {P A C x y : ℕ} (hA : A < P) (hxy : x < y) : A + P * x < C + P * y :=
  calc A + P * x < P + P * x := Nat.add_lt_add_right hA _
    _ = P * (x + 1) := by ring
    _ ≤ P * y := Nat.mul_le_mul_left _ hxy
    _ ≤ C + P * y := Nat.le_add_left _ _

/-- The bit length of a number with a nonzero top limb `x` above `m` low bits. -/
theorem size_add_two_pow_mul {m r x : ℕ} (hr : r < 2 ^ m) (hx : 0 < x) :
    (r + 2 ^ m * x).size = m + x.size := by
  have hsx : 0 < x.size := Nat.size_pos.mpr hx
  apply le_antisymm
  · -- the value is below `2 ^ (m + size x)`
    apply Nat.size_le.mpr
    calc r + 2 ^ m * x < 2 ^ m + 2 ^ m * x := Nat.add_lt_add_right hr _
      _ = 2 ^ m * (x + 1) := by ring
      _ ≤ 2 ^ m * 2 ^ x.size := Nat.mul_le_mul_left _ (Nat.lt_size_self x)
      _ = 2 ^ (m + x.size) := (pow_add 2 m x.size).symm
  · -- and its bit `m + size x - 1` is set
    have htop : 2 ^ (x.size - 1) ≤ x := Nat.lt_size.mp (by omega)
    have h : m + x.size - 1 < (r + 2 ^ m * x).size := by
      apply Nat.lt_size.mpr
      calc 2 ^ (m + x.size - 1) = 2 ^ m * 2 ^ (x.size - 1) := by
            rw [← pow_add]; congr 1; omega
        _ ≤ 2 ^ m * x := Nat.mul_le_mul_left _ htop
        _ ≤ r + 2 ^ m * x := Nat.le_add_left _ _
    omega

/-! ### Loops that OR bits into limbs -/

/-- A fold keeps what each of its passes keeps. -/
theorem foldl_inv {σ : Type*} (step : σ → β → σ) (inv : σ → Prop)
    (hinv : ∀ s i, inv s → inv (step s i)) : ∀ (xs : List β) (s : σ), inv s → inv (xs.foldl step s)
  | [], _, hs => hs
  | x :: xs, s, hs => foldl_inv step inv hinv xs (step s x) (hinv s x hs)

/-- A fold whose passes only add to a property of its states, as long as the states keep
`inv`: the property holds at the end iff it held at the start or some pass `i < m` made it
hold. -/
theorem foldl_range_accum {σ : Type*} (step : σ → ℕ → σ) (inv : σ → Prop)
    (hinv : ∀ s i, inv s → inv (step s i)) (bit : σ → Prop) (P : ℕ → Prop)
    (hstep : ∀ s i, inv s → (bit (step s i) ↔ bit s ∨ P i)) :
    ∀ (m : ℕ) (s : σ), inv s → (bit ((List.range m).foldl step s) ↔ bit s ∨ ∃ i < m, P i)
  | 0, s, _ => by simp
  | m + 1, s, hs => by
    rw [List.range_succ, List.foldl_append, List.foldl_cons, List.foldl_nil,
      hstep _ _ (foldl_inv step inv hinv _ s hs), foldl_range_accum step inv hinv bit P hstep m s hs,
      Nat.exists_lt_succ_right, or_assoc]

/-- ORing `v` into limb `p`: a bit of a limb is set afterwards iff it was set before, or the
limb is `p`, exists, and the bit is set in `v`. -/
theorem testBit_getD_modify_or (l : List UInt32) (p : ℕ) (v : UInt32) (r q : ℕ) :
    ((l.modify p (· ||| v)).getD r 0).toNat.testBit q =
      ((l.getD r 0).toNat.testBit q || (decide (r = p ∧ p < l.length) && v.toNat.testBit q)) := by
  rw [List.getD_eq_getElem?_getD, List.getD_eq_getElem?_getD, List.getElem?_modify]
  by_cases hr : r < l.length
  · rw [List.getElem?_eq_getElem hr]
    by_cases hp : p = r
    · subst hp
      simp [hr, UInt32.toNat_or, Nat.testBit_or]
    · simp [hp, Ne.symm hp]
  · have hnone : l[r]? = none := List.getElem?_eq_none (by omega)
    have hpr : ¬(r = p ∧ p < l.length) := fun h => hr (h.1 ▸ h.2)
    simp [hnone, hpr]

/-- ORing `v` into limb `p` under a guard `c`. -/
theorem testBit_getD_ite_modify_or (c : Prop) [Decidable c] (l : List UInt32) (p : ℕ)
    (v : UInt32) (r q : ℕ) :
    ((if c then l.modify p (· ||| v) else l).getD r 0).toNat.testBit q = true ↔
      (l.getD r 0).toNat.testBit q = true ∨ (r = p ∧ p < l.length ∧ c ∧ v.toNat.testBit q = true) := by
  by_cases hc : c
  · rw [if_pos hc, testBit_getD_modify_or]
    simp only [Bool.or_eq_true, Bool.and_eq_true, decide_eq_true_eq]
    tauto
  · rw [if_neg hc]
    tauto

theorem length_ite_modify (c : Prop) [Decidable c] (l : List UInt32) (p : ℕ) (f : UInt32 → UInt32) :
    (if c then l.modify p f else l).length = l.length := by
  split_ifs <;> simp

/-- A bit set in a 32-bit limb is one of its 32 bits. -/
theorem lt_of_testBit (x : UInt32) {j : ℕ} (h : x.toNat.testBit j = true) : j < 32 := by
  by_contra hj
  have hlt : x.toNat < 2 ^ j := x.toNat_lt.trans_le (Nat.pow_le_pow_right (by norm_num) (by omega))
  rw [Nat.testBit_lt_two_pow hlt] at h
  exact Bool.false_ne_true h

theorem testBit_shiftLeft_toUInt32 (x : UInt32) {s : ℕ} (hs : s < 32) (q : ℕ) :
    (x <<< s.toUInt32).toNat.testBit q =
      (decide (q < 32) && (decide (s ≤ q) && x.toNat.testBit (q - s))) := by
  have hs' : s.toUInt32.toNat % 32 = s := by simp; omega
  rw [UInt32.toNat_shiftLeft, hs', Nat.testBit_mod_two_pow, Nat.testBit_shiftLeft]

theorem testBit_shiftRight_toUInt32 (x : UInt32) {s : ℕ} (hs : s < 32) (q : ℕ) :
    (x >>> s.toUInt32).toNat.testBit q = x.toNat.testBit (s + q) := by
  have hs' : s.toUInt32.toNat % 32 = s := by simp; omega
  rw [UInt32.toNat_shiftRight, hs', Nat.testBit_shiftRight]

/-- Testing one bit of a limb with a mask, `x & 1U << m`. -/
theorem and_one_shiftLeft_ne_zero (x : UInt32) {m : ℕ} (hm : m < 32) :
    x &&& (1 : UInt32) <<< m.toUInt32 ≠ 0 ↔ x.toNat.testBit m = true := by
  have hm' : m.toUInt32.toNat % 32 = m := by simp; omega
  have hpow : (2 : ℕ) ^ m < 2 ^ 32 := Nat.pow_lt_pow_right (by norm_num) hm
  have h : (x &&& (1 : UInt32) <<< m.toUInt32).toNat = (x.toNat.testBit m).toNat * 2 ^ m := by
    rw [UInt32.toNat_and, UInt32.toNat_shiftLeft, hm', UInt32.toNat_one, Nat.shiftLeft_eq,
      Nat.one_mul, Nat.mod_eq_of_lt hpow, Nat.and_two_pow]
  rw [Ne, ← UInt32.toNat_inj, h, UInt32.toNat_zero]
  cases x.toNat.testBit m <;> simp

end Limbs
