import HydraNode.Qtum.Condensing
import HydraNode.Lib.Flow

/-!
# What the passes of the condensing transaction compute

One lemma per pass of `CondensingTX`, each saying in closed form what the pass leaves in
the object, so that the statements about the whole transaction never unfold a loop.

* `calculatePlusAndMinus` leaves, for every address in a transfer, the pair of what it
  receives and what it sends, reduced modulo `2 ^ 256` (`plusMinusInfo_find?`).
* `selectionVin` touches only addresses in a transfer, and for every address other than a
  value-carrying sender it selects exactly `state->vin(a)` (`SelectionInv`,
  `selectionInv_selectionVin`).

The flows are the general ones of `Flow`, instantiated at `TransferInfo`.

## Main definitions

* `inflow`, `outflow`, `participants`
* `PlusMinusInv`, `SelectionInv`
* `selected`, `plusMinus`, `oldValue`, `newBalance`

## Main results

* `plusMinusInfo_find?`, `mem_keys_plusMinusInfo`
* `selectionInv_selectionVin`, `selected_keys_subset`
* `createNewBalances_spec`
-/

namespace HydraNode

/-- Everything `a` receives in the transfers, as a number. -/
def inflow (ts : List TransferInfo) (a : Address) : ℕ :=
  Flow.received (·.to) (fun t => t.value.val) ts a

/-- Everything `a` sends in the transfers, as a number. -/
def outflow (ts : List TransferInfo) (a : Address) : ℕ :=
  Flow.sent (·.from) (fun t => t.value.val) ts a

/-- The addresses that send or receive in the transfers. -/
def participants (ts : List TransferInfo) : List Address :=
  Flow.endpoints (·.from) (·.to) ts

theorem mem_participants {ts : List TransferInfo} {a : Address} :
    a ∈ participants ts ↔ ∃ t ∈ ts, t.from = a ∨ t.to = a :=
  Flow.mem_endpoints _ _

/-- A property of every participant is one of both ends of every transfer. The right side
is decided by running through the transfers, where the left would range over all addresses. -/
theorem forall_mem_participants {ts : List TransferInfo} {P : Address → Prop} :
    (∀ a ∈ participants ts, P a) ↔ ∀ t ∈ ts, P t.from ∧ P t.to := by
  constructor
  · intro h t ht
    exact ⟨h _ (mem_participants.mpr ⟨t, ht, Or.inl rfl⟩),
      h _ (mem_participants.mpr ⟨t, ht, Or.inr rfl⟩)⟩
  · intro h a ha
    obtain ⟨t, ht, rfl | rfl⟩ := mem_participants.mp ha
    exacts [(h t ht).1, (h t ht).2]

theorem participants_append (ts ts' : List TransferInfo) :
    participants (ts ++ ts') = participants ts ++ participants ts' :=
  Flow.endpoints_append _ _ ts ts'

theorem inflow_append_singleton (ts : List TransferInfo) (t : TransferInfo) (a : Address) :
    inflow (ts ++ [t]) a = inflow ts a + if t.to = a then t.value.val else 0 := by
  simp [inflow, Flow.received_append]

theorem outflow_append_singleton (ts : List TransferInfo) (t : TransferInfo) (a : Address) :
    outflow (ts ++ [t]) a = outflow ts a + if t.from = a then t.value.val else 0 := by
  simp [outflow, Flow.sent_append]

namespace CondensingTX

/-! ## `calculatePlusAndMinus` -/

/-- `recordFlow` whose fresh entry is the update applied to `(0, 0)` is `OrdMap.modify`. -/
theorem recordFlow_eq_modify (pm : OrdMap Address (U256 × U256)) (a : Address)
    (f : U256 × U256 → U256 × U256) : recordFlow pm a (f (0, 0)) f = pm.modify a (0, 0) f := by
  cases h : pm.find? a <;> simp [recordFlow, OrdMap.modify, h]

/-- `plusMinusStep` as two uses of `OrdMap.modify`: the payment of the source, then the
receipt of the target, each read with the default pair `(0, 0)`. -/
theorem plusMinusStep_eq (pm : OrdMap Address (U256 × U256)) (t : TransferInfo) :
    plusMinusStep pm t =
      (pm.modify t.from (0, 0) fun p => (p.1, p.2 + t.value)).modify t.to (0, 0)
        fun p => (p.1 + t.value, p.2) := by
  have h₁ := recordFlow_eq_modify pm t.from fun p => (p.1, p.2 + t.value)
  have h₂ := recordFlow_eq_modify (pm.modify t.from (0, 0) fun p => (p.1, p.2 + t.value)) t.to
    fun p => (p.1 + t.value, p.2)
  simp only [Fin.zero_add] at h₁ h₂
  simp only [plusMinusStep, h₁, h₂]

/-- The state of `plusMinusInfo` after the transfers `done`: the receipts and payments of
every participant, reduced into `u256`. -/
def PlusMinusInv (done : List TransferInfo) (pm : OrdMap Address (U256 × U256)) : Prop :=
  ∀ a, pm.find? a =
    if a ∈ participants done then some (U256.ofNat (inflow done a), U256.ofNat (outflow done a))
    else none

theorem plusMinusInv_nil : PlusMinusInv [] ∅ := by
  intro a
  simp [participants, Flow.endpoints]

/-- The default pair read for a participant or not: the flows of `done`. -/
private theorem getD_of_plusMinusInv {done : List TransferInfo}
    {pm : OrdMap Address (U256 × U256)} (h : PlusMinusInv done pm) (a : Address) :
    (pm.find? a).getD (0, 0) = (U256.ofNat (inflow done a), U256.ofNat (outflow done a)) := by
  rw [h a]
  split_ifs with hp
  · rfl
  · simp [inflow, outflow, Flow.received_eq_zero _ _ _ hp, Flow.sent_eq_zero _ _ _ hp]

/-- One transfer adds its value to the payments of its source and then to the receipts of
its target; the target's update reads the map after the source's. -/
theorem plusMinusInv_step {done : List TransferInfo} {pm : OrdMap Address (U256 × U256)}
    (h : PlusMinusInv done pm) (t : TransferInfo) :
    PlusMinusInv (done ++ [t]) (plusMinusStep pm t) := by
  -- after the payment, the map is the invariant of `done` with the payment added
  have h₁ : ∀ a, (pm.modify t.from (0, 0) fun p => (p.1, p.2 + t.value)).find? a =
      if a ∈ participants done ∨ t.from = a then
        some (U256.ofNat (inflow done a),
          U256.ofNat (outflow done a + if t.from = a then t.value.val else 0))
      else none := by
    intro a
    rw [OrdMap.find?_modify, getD_of_plusMinusInv h]
    by_cases hfa : t.from = a
    · subst hfa
      simp [U256.ofNat_add_val]
    · simp [hfa, h a]
  intro a
  rw [plusMinusStep_eq, OrdMap.find?_modify]
  have hmem : a ∈ participants (done ++ [t]) ↔ a ∈ participants done ∨ t.from = a ∨ t.to = a := by
    simp [participants, Flow.endpoints, eq_comm]
  rw [inflow_append_singleton, outflow_append_singleton]
  by_cases hta : t.to = a
  · subst hta
    have hget : ((pm.modify t.from (0, 0) fun p => (p.1, p.2 + t.value)).find? t.to).getD (0, 0)
        = (U256.ofNat (inflow done t.to),
            U256.ofNat (outflow done t.to + if t.from = t.to then t.value.val else 0)) := by
      rw [h₁ t.to]
      by_cases hp : t.to ∈ participants done ∨ t.from = t.to
      · rw [if_pos hp]
        rfl
      · rw [if_neg hp]
        simp only [not_or] at hp
        simp [hp.2, inflow, outflow, Flow.received_eq_zero _ _ _ hp.1,
          Flow.sent_eq_zero _ _ _ hp.1]
    simp [hget, hmem, U256.ofNat_add_val]
  · rw [if_neg hta, h₁ a]
    simp [hmem, hta]

/-- `calculatePlusAndMinus` over a run of transfers: by induction on the transfers not yet
processed, each step keeping `PlusMinusInv`. -/
theorem plusMinusInv_foldl (rest : List TransferInfo) {done : List TransferInfo}
    {pm : OrdMap Address (U256 × U256)} (h : PlusMinusInv done pm) :
    PlusMinusInv (done ++ rest) (rest.foldl plusMinusStep pm) := by
  induction rest generalizing done pm with
  | nil => simpa using h
  | cons t rest ih =>
    rw [List.foldl_cons, show done ++ t :: rest = done ++ [t] ++ rest by simp]
    exact ih (plusMinusInv_step h t)

/-- What `calculatePlusAndMinus` leaves for every address. -/
theorem plusMinusInfo_find? (ts : List TransferInfo) (a : Address) :
    (ts.foldl plusMinusStep ∅).find? a =
      if a ∈ participants ts then some (U256.ofNat (inflow ts a), U256.ofNat (outflow ts a))
      else none := by
  simpa using plusMinusInv_foldl ts plusMinusInv_nil a

theorem mem_keys_plusMinusInfo (ts : List TransferInfo) (a : Address) :
    a ∈ (ts.foldl plusMinusStep ∅).keys ↔ a ∈ participants ts := by
  rw [← not_iff_not, ← OrdMap.find?_eq_none_iff, plusMinusInfo_find?]
  split_ifs with hp <;> simp [hp]

/-! ## `selectionVin` -/

section selection

variable (env : CondensingEnv) (tx : QtumTransaction)

theorem find?_selectStateVin_of_eq_none {vins : OrdMap Address Vin} {a : Address}
    (h : vins.find? a = none) (x : Address) :
    (selectStateVin env vins a).find? x = if a = x then env.vin x else vins.find? x := by
  unfold selectStateVin
  cases hv : env.vin a with
  | none =>
    by_cases hax : a = x
    · subst hax; simp [hv, h]
    · simp [hax]
  | some v =>
    by_cases hax : a = x
    · subst hax; simp [hv]
    · simp [OrdMap.find?_insert, hax]

/-- Both blocks of the loop fill an absent entry from the state; only the source block may
use the transaction's output, and only for the sender of a value-carrying transaction. -/
theorem find?_selectToVin (vins : OrdMap Address Vin) (a x : Address) :
    (selectToVin env vins a).find? x =
      if a = x ∧ vins.find? x = none then env.vin x else vins.find? x := by
  unfold selectToVin OrdMap.contains
  cases h : vins.find? a with
  | some v =>
    by_cases hax : a = x
    · subst hax; simp [h]
    · simp [hax]
  | none =>
    simp only [Option.isSome_none, Bool.false_eq_true, if_false]
    rw [find?_selectStateVin_of_eq_none env h x]
    by_cases hax : a = x
    · subst hax; simp [h]
    · simp [hax]

theorem find?_selectFromVin_of_ne (vins : OrdMap Address Vin) (a : Address) {x : Address}
    (hx : ¬(x = tx.sender ∧ 0 < tx.value)) :
    (selectFromVin env tx vins a).find? x =
      if a = x ∧ vins.find? x = none then env.vin x else vins.find? x := by
  unfold selectFromVin OrdMap.contains
  cases h : vins.find? a with
  | some v =>
    -- the source already has a `Vin`: nothing changes, and the test for a fresh one fails
    have hnot : ¬(a = x ∧ vins.find? x = none) := by
      rintro ⟨rfl, hn⟩
      rw [h] at hn
      exact Option.some_ne_none v hn
    simp [hnot]
  | none =>
    simp only [Option.isSome_none, Bool.false_eq_true, if_false]
    by_cases hs : a = tx.sender ∧ 0 < tx.value
    · have hax : a ≠ x := fun hax => hx (hax ▸ hs)
      rw [if_pos hs, OrdMap.find?_insert_of_ne _ _ hax, find?_selectStateVin_of_eq_none env h x]
      simp [hax]
    · rw [if_neg hs, find?_selectStateVin_of_eq_none env h x]
      by_cases hax : a = x
      · subst hax; simp [h]
      · simp [hax]

theorem mem_keys_selectStateVin {vins : OrdMap Address Vin} {a x : Address}
    (hx : x ∈ (selectStateVin env vins a).keys) : x = a ∨ x ∈ vins.keys := by
  unfold selectStateVin at hx
  split at hx
  · exact (vins.mem_keys_insert _ _ _).mp hx
  · exact Or.inr hx

theorem mem_keys_selectToVin {vins : OrdMap Address Vin} {a x : Address}
    (hx : x ∈ (selectToVin env vins a).keys) : x = a ∨ x ∈ vins.keys := by
  unfold selectToVin at hx
  split at hx
  · exact Or.inr hx
  · exact mem_keys_selectStateVin env hx

theorem mem_keys_selectFromVin {vins : OrdMap Address Vin} {a x : Address}
    (hx : x ∈ (selectFromVin env tx vins a).keys) : x = a ∨ x ∈ vins.keys := by
  unfold selectFromVin at hx
  split at hx
  · exact Or.inr hx
  · split at hx
    · rcases (OrdMap.mem_keys_insert _ _ _ _).mp hx with rfl | hx
      · exact Or.inl rfl
      · exact mem_keys_selectStateVin env hx
    · exact mem_keys_selectStateVin env hx

/-- What `selectionVin` has picked after the transfers `done`: only participants have an
entry, and every address other than a value-carrying sender has `state->vin` once it has
taken part. -/
structure SelectionInv (done : List TransferInfo) (vins : OrdMap Address Vin) : Prop where
  keys_subset : ∀ x ∈ vins.keys, x ∈ participants done
  find?_of_ne : ∀ x, ¬(x = tx.sender ∧ 0 < tx.value) →
    vins.find? x = if x ∈ participants done then env.vin x else none

theorem selectionInv_nil : SelectionInv env tx [] ∅ where
  keys_subset := by simp
  find?_of_ne := by simp [participants, Flow.endpoints]

/-- Filling an absent entry from the state at `a` adds `a` to the addresses taken part. -/
private theorem fill_of_inv {vins : OrdMap Address Vin} {P : Prop} [Decidable P] {a x : Address}
    (h : vins.find? x = if P then env.vin x else none) :
    (if a = x ∧ vins.find? x = none then env.vin x else vins.find? x) =
      if P ∨ a = x then env.vin x else none := by
  by_cases hax : a = x
  · subst hax
    by_cases hP : P <;> simp [hP, h]
  · simp [hax, h]

theorem selectionInv_step {done : List TransferInfo} {vins : OrdMap Address Vin}
    (h : SelectionInv env tx done vins) (t : TransferInfo) :
    SelectionInv env tx (done ++ [t]) (selectionVinStep env tx vins t) where
  keys_subset x hx := by
    have hmem : x ∈ participants (done ++ [t]) ↔ x ∈ participants done ∨ x = t.from ∨ x = t.to :=
      by simp [participants, Flow.endpoints]
    rw [hmem]
    rcases mem_keys_selectToVin env hx with rfl | hx
    · exact Or.inr (Or.inr rfl)
    rcases mem_keys_selectFromVin env tx hx with rfl | hx
    · exact Or.inr (Or.inl rfl)
    · exact Or.inl (h.keys_subset x hx)
  find?_of_ne x hx := by
    have hmem : x ∈ participants (done ++ [t]) ↔ (x ∈ participants done ∨ t.from = x) ∨ t.to = x :=
      by simp [participants, Flow.endpoints, eq_comm, or_assoc]
    have h₁ := fill_of_inv env (a := t.from) (h.find?_of_ne x hx)
    rw [← find?_selectFromVin_of_ne env tx vins t.from hx] at h₁
    have h₂ := fill_of_inv env (a := t.to) h₁
    rw [← find?_selectToVin] at h₂
    simpa only [selectionVinStep, hmem] using h₂

theorem selectionInv_foldl (rest : List TransferInfo) {done : List TransferInfo}
    {vins : OrdMap Address Vin} (h : SelectionInv env tx done vins) :
    SelectionInv env tx (done ++ rest) (rest.foldl (selectionVinStep env tx) vins) := by
  induction rest generalizing done vins with
  | nil => simpa using h
  | cons t rest ih =>
    rw [List.foldl_cons, show done ++ t :: rest = done ++ [t] ++ rest by simp]
    exact ih (selectionInv_step env tx h t)

/-- What `selectionVin` picks, from the empty map. -/
theorem selectionInv_selectionVin (ts : List TransferInfo) :
    SelectionInv env tx ts (ts.foldl (selectionVinStep env tx) ∅) := by
  simpa using selectionInv_foldl env tx ts (selectionInv_nil env tx)

end selection

/-! ## `createNewBalances` -/

/-- The value `createNewBalances` starts an address from: its `Vin`'s value when the `Vin`
is alive or the address is not deleted, and `0` for an address without a `Vin`. -/
def oldValue (c : CondensingTX) (vins : OrdMap Address Vin) (a : Address) : U256 :=
  match vins.find? a with
  | some v => if v.alive != 0 || !c.checkDeleteAddress a then v.value else 0
  | none => 0

/-- One iteration of `createNewBalances` in closed form. -/
theorem newBalanceStep_eq (c : CondensingTX) (vins : OrdMap Address Vin)
    (balances : OrdMap Address U256) (a : Address) (p : U256 × U256) :
    c.newBalanceStep vins balances a p =
      if c.oldValue vins a + p.1 < p.2 then none
      else some (vins.touch a Vin.default, balances.insert a (c.oldValue vins a + p.1 - p.2)) := by
  -- the balance read by the step is `oldValue`, whether or not `a` already had a `Vin`
  have hbal : (if c.countsOldValue vins a then
      ((vins.touch a Vin.default).findD a Vin.default).value else 0) = c.oldValue vins a := by
    unfold countsOldValue oldValue OrdMap.findD
    rw [OrdMap.find?_touch_self]
    cases h : vins.find? a with
    | none => simp [OrdMap.contains, h, Vin.default]
    | some v =>
      by_cases hv : v.alive = 0 <;> simp [OrdMap.contains, h, hv]
  simp only [newBalanceStep, hbal]

theorem oldValue_congr (c : CondensingTX) {vins vins' : OrdMap Address Vin} {a : Address}
    (h : vins'.find? a = vins.find? a) : c.oldValue vins' a = c.oldValue vins a := by
  unfold oldValue
  rw [h]

/-- The loop of `createNewBalances` over entries with distinct addresses, by induction on
the entries. It succeeds exactly when every address covers its payments; it then leaves a
`Vin` (the old one or the default) under every address of the loop, and under each of them
the balance `old + plus - minus`. Addresses are distinct, so the `Vin` an iteration reads is
the one the loop started with. -/
theorem newBalancesLoop_spec (c : CondensingTX) (l : List (Address × (U256 × U256)))
    (hl : (l.map Prod.fst).Nodup) (vins : OrdMap Address Vin) (balances : OrdMap Address U256) :
    ((c.newBalancesLoop l vins balances).1 = true ↔
      ∀ e ∈ l, ¬c.oldValue vins e.1 + e.2.1 < e.2.2) ∧
    ((c.newBalancesLoop l vins balances).1 = true →
      (∀ x, (c.newBalancesLoop l vins balances).2.1.find? x =
        if x ∈ l.map Prod.fst then some ((vins.find? x).getD Vin.default) else vins.find? x) ∧
      (∀ e ∈ l, (c.newBalancesLoop l vins balances).2.2.find? e.1 =
        some (c.oldValue vins e.1 + e.2.1 - e.2.2)) ∧
      (∀ x ∉ l.map Prod.fst, (c.newBalancesLoop l vins balances).2.2.find? x =
        balances.find? x)) := by
  induction l generalizing vins balances with
  | nil => simp [newBalancesLoop]
  | cons e rest ih =>
    obtain ⟨a, p⟩ := e
    rw [List.map_cons, List.nodup_cons] at hl
    simp only [newBalancesLoop, newBalanceStep_eq]
    by_cases hfail : c.oldValue vins a + p.1 < p.2
    · -- the early `return false`
      simp [hfail]
    · simp only [hfail, if_false]
      -- the rest of the loop reads the `Vin`s of other addresses, which the step left alone
      have hold : ∀ e ∈ rest, c.oldValue (vins.touch a Vin.default) e.1 = c.oldValue vins e.1 :=
        fun e he => oldValue_congr c (OrdMap.find?_touch_of_ne _ _ fun hae =>
          hl.1 (List.mem_map.mpr ⟨e, he, hae.symm⟩))
      obtain ⟨ih₁, ih₂⟩ := ih hl.2 (vins.touch a Vin.default)
        (balances.insert a (c.oldValue vins a + p.1 - p.2))
      refine ⟨?_, fun hr => ?_⟩
      · rw [ih₁]
        constructor
        · intro h e he
          rcases List.mem_cons.mp he with rfl | he
          · exact hfail
          · rw [← hold e he]; exact h e he
        · intro h e he
          rw [hold e he]; exact h e (List.mem_cons_of_mem _ he)
      obtain ⟨hv, hb, hb'⟩ := ih₂ hr
      refine ⟨fun x => ?_, fun e he => ?_, fun x hx => ?_⟩
      · rw [hv x, OrdMap.find?_touch]
        by_cases hax : a = x
        · subst hax
          cases vins.find? a <;> simp [hl.1]
        · simp [hax, Ne.symm hax]
      · rcases List.mem_cons.mp he with rfl | he
        · rw [hb' _ hl.1, OrdMap.find?_insert_self]
        · rw [hb e he, hold e he]
      · simp only [List.map_cons, List.mem_cons, not_or] at hx
        rw [hb' x hx.2, OrdMap.find?_insert_of_ne _ _ (Ne.symm hx.1)]

/-! ## `createVout` -/

/-- The output `createVout` makes for an address and its positive balance. -/
def voutFor (env : CondensingEnv) (e : Address × U256) : CTxOut :=
  ⟨amountOfU256 e.2, voutScript env e.1⟩

/-- The loop of `createVout`, when it does not pass the limit, by induction on the entries:
the outputs are those of the positive balances, in order, and `nVouts` numbers each
address with the index of its output. The counter is the number of outputs made so far. -/
theorem voutLoop_spec (env : CondensingEnv) (l : List (Address × U256))
    (hl : (l.map Prod.fst).Nodup) (outs : List CTxOut) (count : ℕ) (nVouts : OrdMap Address ℕ)
    (hc : outs.length = count) (hflag : (voutLoop env l outs count nVouts).2.2 = false) :
    (voutLoop env l outs count nVouts).1 = outs ++ (l.filter (0 < ·.2)).map (voutFor env) ∧
    (∀ e ∈ l, 0 < e.2 → ∃ k, (voutLoop env l outs count nVouts).2.1.find? e.1 = some k ∧
      (voutLoop env l outs count nVouts).1[k]? = some (voutFor env e)) ∧
    (∀ x ∉ (l.filter (0 < ·.2)).map Prod.fst,
      (voutLoop env l outs count nVouts).2.1.find? x = nVouts.find? x) := by
  induction l generalizing outs count nVouts with
  | nil => simp [voutLoop]
  | cons e rest ih =>
    obtain ⟨a, b⟩ := e
    rw [List.map_cons, List.nodup_cons] at hl
    by_cases hb : 0 < b
    · -- a positive balance: one more output, numbered `count`
      have hlim : ¬MAX_CONTRACT_VOUTS < count + 1 := by
        intro h
        simp [voutLoop, hb, h] at hflag
      have hstep : voutLoop env ((a, b) :: rest) outs count nVouts =
          voutLoop env rest (outs ++ [voutFor env (a, b)]) (count + 1) (nVouts.insert a count) := by
        simp [voutLoop, hb, hlim, voutFor]
      rw [hstep] at hflag ⊢
      obtain ⟨h₁, h₂, h₃⟩ := ih hl.2 _ _ _ (by simp [hc]) hflag
      have ha : a ∉ (rest.filter (0 < ·.2)).map Prod.fst := fun h =>
        hl.1 (((List.filter_sublist).map Prod.fst).subset h)
      refine ⟨by simp [h₁, hb], fun e he hpos => ?_, fun x hx => ?_⟩
      · rcases List.mem_cons.mp he with rfl | he
        · refine ⟨count, by rw [h₃ _ ha, OrdMap.find?_insert_self], ?_⟩
          rw [h₁, List.append_assoc, List.getElem?_append_right (by omega), hc]
          simp
        · exact h₂ e he hpos
      · simp only [List.filter_cons, hb, decide_true, if_true, List.map_cons, List.mem_cons,
          not_or] at hx
        rw [h₃ x hx.2, OrdMap.find?_insert_of_ne _ _ (Ne.symm hx.1)]
    · have hlim : ¬MAX_CONTRACT_VOUTS < count := by
        intro h
        simp [voutLoop, hb, h] at hflag
      have hstep : voutLoop env ((a, b) :: rest) outs count nVouts =
          voutLoop env rest outs count nVouts := by
        simp [voutLoop, hb, hlim]
      rw [hstep] at hflag ⊢
      obtain ⟨h₁, h₂, h₃⟩ := ih hl.2 _ _ _ hc hflag
      refine ⟨by simp [h₁, hb], fun e he hpos => ?_, fun x hx => ?_⟩
      · rcases List.mem_cons.mp he with rfl | he
        · exact absurd hpos hb
        · exact h₂ e he hpos
      · exact h₃ x (by simpa [List.filter_cons, hb] using hx)

/-! ## The passes together -/

section whole

variable (env : CondensingEnv) (ts : List TransferInfo) (tx : QtumTransaction)
  (del : List Address)

/-- The `Vin`s `selectionVin` picks for the transfers. -/
def selected : OrdMap Address Vin := ts.foldl (selectionVinStep env tx) ∅

/-- `plusMinusInfo` after `calculatePlusAndMinus`. -/
def plusMinus : OrdMap Address (U256 × U256) := ts.foldl plusMinusStep ∅

/-- The object after `selectionVin` and `calculatePlusAndMinus`. -/
def afterSelection : CondensingTX := ((mk' ts tx del).selectionVin env).calculatePlusAndMinus

/-- The balance `createNewBalances` computes for `a`, in `u256` arithmetic. -/
def newBalance (a : Address) : U256 :=
  (mk' ts tx del).oldValue (selected env ts tx) a + U256.ofNat (inflow ts a) -
    U256.ofNat (outflow ts a)

theorem afterSelection_vins : (afterSelection env ts tx del).vins = selected env ts tx := rfl

theorem afterSelection_plusMinusInfo :
    (afterSelection env ts tx del).plusMinusInfo = plusMinus ts := rfl

theorem mem_keys_plusMinus (a : Address) : a ∈ (plusMinus ts).keys ↔ a ∈ participants ts :=
  mem_keys_plusMinusInfo ts a

theorem plusMinus_entries :
    (plusMinus ts).entries = (plusMinus ts).keys.map fun a =>
      (a, (U256.ofNat (inflow ts a), U256.ofNat (outflow ts a))) := by
  refine (plusMinus ts).entries_eq_map_of_find? _ rfl fun a ha => ?_
  rw [plusMinus, plusMinusInfo_find?, if_pos ((mem_keys_plusMinus ts a).mp ha)]

theorem selected_keys_subset {a : Address} (ha : a ∈ (selected env ts tx).keys) :
    a ∈ (plusMinus ts).keys :=
  (mem_keys_plusMinus ts a).mpr ((selectionInv_selectionVin env tx ts).keys_subset a ha)

/-- `createNewBalances` after the first two passes: it succeeds exactly when no participant
goes below zero in `u256` arithmetic, and then every participant has a `Vin` (its selected
one or the default) and its new balance. -/
theorem createNewBalances_spec :
    ((afterSelection env ts tx del).createNewBalances.1 = true ↔
      ∀ a ∈ (plusMinus ts).keys, ¬(mk' ts tx del).oldValue (selected env ts tx) a +
        U256.ofNat (inflow ts a) < U256.ofNat (outflow ts a)) ∧
    ((afterSelection env ts tx del).createNewBalances.1 = true →
      (afterSelection env ts tx del).createNewBalances.2.balances.entries =
        (plusMinus ts).keys.map (fun a => (a, newBalance env ts tx del a)) ∧
      (afterSelection env ts tx del).createNewBalances.2.vins.entries =
        (plusMinus ts).keys.map
          (fun a => (a, ((selected env ts tx).find? a).getD Vin.default))) := by
  have hnodup : ((plusMinus ts).entries.map Prod.fst).Nodup := (plusMinus ts).keys_nodup
  obtain ⟨h₁, h₂⟩ := (afterSelection env ts tx del).newBalancesLoop_spec (plusMinus ts).entries
    hnodup (selected env ts tx) ∅
  have hkeys : (plusMinus ts).entries.map Prod.fst = (plusMinus ts).keys := rfl
  have hold : (afterSelection env ts tx del).oldValue = (mk' ts tx del).oldValue := rfl
  -- the loop's condition, read over the participants instead of the entries
  have hcond : (∀ e ∈ (plusMinus ts).entries,
      ¬(afterSelection env ts tx del).oldValue (selected env ts tx) e.1 + e.2.1 < e.2.2) ↔
      ∀ a ∈ (plusMinus ts).keys, ¬(mk' ts tx del).oldValue (selected env ts tx) a +
        U256.ofNat (inflow ts a) < U256.ofNat (outflow ts a) := by
    rw [plusMinus_entries, List.forall_mem_map, hold]
  have hmemE : ∀ a ∈ (plusMinus ts).keys,
      (a, (U256.ofNat (inflow ts a), U256.ofNat (outflow ts a))) ∈ (plusMinus ts).entries := by
    intro a ha
    rw [plusMinus_entries]
    exact List.mem_map_of_mem ha
  have hunfold : (afterSelection env ts tx del).createNewBalances =
      (((afterSelection env ts tx del).newBalancesLoop (plusMinus ts).entries
        (selected env ts tx) ∅).1, { afterSelection env ts tx del with
        vins := ((afterSelection env ts tx del).newBalancesLoop (plusMinus ts).entries
          (selected env ts tx) ∅).2.1,
        balances := ((afterSelection env ts tx del).newBalancesLoop (plusMinus ts).entries
          (selected env ts tx) ∅).2.2 }) := rfl
  rw [hunfold]
  refine ⟨h₁.trans hcond, fun hr => ?_⟩
  obtain ⟨hv, hb, hb'⟩ := h₂ hr
  constructor
  · refine OrdMap.entries_eq_map_of_find? _ _ ?_ fun a ha => ?_
    · refine OrdMap.keys_eq_of_mem_iff _ (plusMinus ts).keys_pairwise fun a => ?_
      rw [OrdMap.mem_keys_iff_find?_ne_none]
      by_cases ha : a ∈ (plusMinus ts).keys
      · simp [hb _ (hmemE a ha), ha]
      · have ha' : a ∉ (plusMinus ts).entries.map Prod.fst := by rwa [hkeys]
        simp [hb' a ha', ha]
    · simp [hb _ (hmemE a ha), newBalance, hold]
  · refine OrdMap.entries_eq_map_of_find? _ _ ?_ fun a ha => ?_
    · refine OrdMap.keys_eq_of_mem_iff _ (plusMinus ts).keys_pairwise fun a => ?_
      rw [OrdMap.mem_keys_iff_find?_ne_none]
      by_cases ha : a ∈ (plusMinus ts).keys
      · simp [hv a, hkeys, ha]
      · -- a non-participant has no selected `Vin`
        have hsel : (selected env ts tx).find? a = none :=
          (OrdMap.find?_eq_none_iff _).mpr fun h => ha (selected_keys_subset env ts tx h)
        simp [hv a, hkeys, ha, hsel]
    · simp [hv a, hkeys, ha]

end whole

end CondensingTX

end HydraNode
