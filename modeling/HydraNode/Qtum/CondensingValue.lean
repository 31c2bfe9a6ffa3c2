import HydraNode.Qtum.CondensingSpec

/-!
# Value conservation of the condensing transaction

The condensing transaction spends the contract outputs of the addresses that took part in a
contract execution and pays each of them its new balance. This file states what that means
for the values and proves it of `createCondensingTX`.

## The statement

`ValueConservation` is the property as one would first write it: an address that would go
negative empties the transaction, and otherwise the inputs are one per spent `Vin`, the
outputs one per address with a positive new balance `old + received - sent`, and the
outputs carry exactly what the inputs bring in.

## Wrapping

The sums of `calculatePlusAndMinus` and the balances of `createNewBalances` are `dev::u256`
values, so they wrap modulo `2 ^ 256`, and the output value is the `CAmount` conversion of a
`u256`. `valueConservation_fails` exhibits transfers whose receipts wrap around: an address
then goes negative as a number, yet the transaction is made, and the receiver is paid the
wrapped sum. The EVM records no such transfers: its accounts hold coins, and the gas of an
execution bounds the number of its transfers. `EvmBounds` names those facts; under them no
sum wraps, every balance fits a `CAmount`, and `valueConservation_of_bounded` proves the
property.

## Main definitions

* `CondensingTX.oldOf`, `CondensingTX.claimedBalance`, `CondensingTX.selectedVin`
* `CondensingTX.ValueConservation`
* `CondensingTX.EvmBounds` — what the EVM guarantees of the transfers it records

## Main results

* `CondensingTX.createCondensingTX_eq` — the whole function, with its loops closed
* `CondensingTX.valueConservation_of_bounded`
* `CondensingTX.valueConservation_fails`
-/

namespace HydraNode

namespace CondensingTX

/-- `createCondensingTX` with the pair patterns read through projections. -/
theorem createCondensingTX_eq (env : CondensingEnv) (c : CondensingTX) :
    createCondensingTX env c =
      let r := ((c.selectionVin env).calculatePlusAndMinus).createNewBalances
      if r.1 then
        ((if r.2.createVins.isEmpty || (r.2.createVout env).1.isEmpty then CTransaction.empty
          else ⟨r.2.createVins, (r.2.createVout env).1⟩), (r.2.createVout env).2)
      else (CTransaction.empty, r.2) := by
  dsimp only [createCondensingTX]
  generalize ((c.selectionVin env).calculatePlusAndMinus).createNewBalances = r
  obtain ⟨ok, c'⟩ := r
  cases ok
  · rfl
  · dsimp only
    generalize createVout env c' = v
    obtain ⟨vout, c''⟩ := v
    rfl

/-! ## Nothing wraps under the bounds -/

theorem val_ofNat_of_lt {n : ℕ} (h : n < 2 ^ 256) : (U256.ofNat n).val = n :=
  Nat.mod_eq_of_lt h

theorem val_add_ofNat {x : U256} {n : ℕ} (hn : x.val + n < 2 ^ 256) :
    (x + U256.ofNat n).val = x.val + n := by
  rw [Fin.val_add, val_ofNat_of_lt (by omega)]
  exact Nat.mod_eq_of_lt hn

/-- The `u256` comparison of `createNewBalances` is the comparison of the numbers. -/
theorem add_ofNat_lt_ofNat_iff {x : U256} {n m : ℕ} (hn : x.val + n < 2 ^ 256)
    (hm : m < 2 ^ 256) : x + U256.ofNat n < U256.ofNat m ↔ x.val + n < m := by
  rw [Fin.lt_def, val_add_ofNat hn, val_ofNat_of_lt hm]

/-- The `u256` balance of `createNewBalances` is the difference of the numbers. -/
theorem val_add_ofNat_sub_ofNat {x : U256} {n m : ℕ} (hn : x.val + n < 2 ^ 256)
    (hm : m < 2 ^ 256) (h : m ≤ x.val + n) :
    (x + U256.ofNat n - U256.ofNat m).val = x.val + n - m := by
  have hadd := val_add_ofNat hn
  rw [Fin.sub_val_of_le (by rw [Fin.le_def, hadd, val_ofNat_of_lt hm]; exact h), hadd,
    val_ofNat_of_lt hm]

section value

variable (env : CondensingEnv) (ts : List TransferInfo) (tx : QtumTransaction)
  (del : List Address)

/-- The value `a` brings in: its selected `Vin`'s value when that `Vin` is alive or `a` is
not deleted, and `0` otherwise. -/
def oldOf (a : Address) : ℕ := ((mk' ts tx del).oldValue (selected env ts tx) a).val

/-- The new balance of `a` as a number: old value, plus receipts, minus payments. -/
def claimedBalance (a : Address) : ℤ := (oldOf env ts tx del a : ℤ) + inflow ts a - outflow ts a

/-- The `Vin` selected for `a`, or the default one. -/
def selectedVin (a : Address) : Vin := ((selected env ts tx).find? a).getD Vin.default

/-- Value conservation of `createCondensingTX`, started on the transfers `ts` of an execution
of `tx` with the deleted addresses `del`. -/
structure ValueConservation : Prop where
  /-- An address that would go negative empties the transaction. -/
  empty_of_negative : (∃ a ∈ participants ts, claimedBalance env ts tx del a < 0) →
    (createCondensingTX env (mk' ts tx del)).1 = CTransaction.empty
  /-- A transaction that is made, without passing the output limit, spends one input per
  spent `Vin`, pays each address with a positive balance once, with exactly that balance,
  and its outputs carry the value of the spent `Vin`s. -/
  balanced : (createCondensingTX env (mk' ts tx del)).1 ≠ CTransaction.empty →
    (createCondensingTX env (mk' ts tx del)).2.voutOverflow = false →
    ∃ spenders payees : List Address,
      spenders.Pairwise (· < ·) ∧ payees.Pairwise (· < ·) ∧
      (∀ a, a ∈ spenders ↔ a ∈ participants ts ∧ 0 < oldOf env ts tx del a) ∧
      (∀ a, a ∈ payees ↔ a ∈ participants ts ∧ 0 < claimedBalance env ts tx del a) ∧
      (createCondensingTX env (mk' ts tx del)).1.vin = spenders.map (fun a =>
        ⟨⟨(selectedVin env ts tx a).hash, (selectedVin env ts tx a).nVout⟩, spendScript⟩) ∧
      (createCondensingTX env (mk' ts tx del)).1.vout = payees.map (fun a =>
        ⟨claimedBalance env ts tx del a, voutScript env a⟩) ∧
      ((createCondensingTX env (mk' ts tx del)).1.vout.map (·.nValue)).sum =
        (spenders.map fun a => ((selectedVin env ts tx a).value.val : ℤ)).sum

/-- The object as `createNewBalances` leaves it. -/
def afterBalances : CondensingTX := (afterSelection env ts tx del).createNewBalances.2

/-- `createCondensingTX` on a fresh object, with its loops closed by `afterSelection`. -/
theorem createCondensingTX_mk'_eq :
    createCondensingTX env (mk' ts tx del) =
      let r := (afterSelection env ts tx del).createNewBalances
      if r.1 then
        ((if r.2.createVins.isEmpty || (r.2.createVout env).1.isEmpty then CTransaction.empty
          else ⟨r.2.createVins, (r.2.createVout env).1⟩), (r.2.createVout env).2)
      else (CTransaction.empty, r.2) :=
  createCondensingTX_eq env _

/-! ### The transaction that is made -/

/-- A transaction that is made comes from a successful `createNewBalances`. -/
theorem createNewBalances_ok_of_ne_empty
    (hne : (createCondensingTX env (mk' ts tx del)).1 ≠ CTransaction.empty) :
    (afterSelection env ts tx del).createNewBalances.1 = true := by
  by_contra hf
  apply hne
  rw [createCondensingTX_mk'_eq]
  simp [hf]

/-- A transaction that is made is the inputs of `createVins` and the outputs of
`createVout`. -/
theorem fst_createCondensingTX_of_ne_empty
    (hne : (createCondensingTX env (mk' ts tx del)).1 ≠ CTransaction.empty) :
    (createCondensingTX env (mk' ts tx del)).1 =
      ⟨(afterBalances env ts tx del).createVins,
        ((afterBalances env ts tx del).createVout env).1⟩ := by
  have hok := createNewBalances_ok_of_ne_empty env ts tx del hne
  have h := hne
  rw [createCondensingTX_mk'_eq] at h ⊢
  simp only [hok, if_true] at h ⊢
  split_ifs at h ⊢
  · exact absurd rfl h
  · rfl

/-- After a successful `createNewBalances` the object is the one `createVout` leaves. -/
theorem snd_createCondensingTX_of_ok
    (hok : (afterSelection env ts tx del).createNewBalances.1 = true) :
    (createCondensingTX env (mk' ts tx del)).2 =
      ((afterBalances env ts tx del).createVout env).2 := by
  rw [createCondensingTX_mk'_eq]
  simp only [hok, if_true]
  rfl

/-- Without the output limit, the loop of `createVout` did not pass it. -/
theorem voutLoop_flag_of_ok
    (hok : (afterSelection env ts tx del).createNewBalances.1 = true)
    (hflag : (createCondensingTX env (mk' ts tx del)).2.voutOverflow = false) :
    (voutLoop env (afterBalances env ts tx del).balances.entries [] 0
      (afterBalances env ts tx del).nVouts).2.2 = false := by
  rw [snd_createCondensingTX_of_ok env ts tx del hok] at hflag
  simp only [createVout, Bool.or_eq_false_iff] at hflag
  exact hflag.2

/-- The test of `createVins` on a selected `Vin` asks that the address bring in value. -/
theorem spendsVin_selectedVin (c : CondensingTX) (hc : c.deleteAddresses = del) (a : Address) :
    c.spendsVin a (selectedVin env ts tx a) = decide (0 < oldOf env ts tx del a) := by
  unfold spendsVin selectedVin oldOf oldValue
  cases (selected env ts tx).find? a with
  | none => simp [Vin.default]
  | some v =>
    have hdel : c.checkDeleteAddress a = (mk' ts tx del).checkDeleteAddress a := by
      unfold checkDeleteAddress
      rw [hc]
      rfl
    rw [hdel]
    by_cases hv : v.alive = 0
    · by_cases hd : (mk' ts tx del).checkDeleteAddress a <;> simp [hv, hd, Fin.pos_iff_ne_zero]
    · have hb₁ : (v.alive != 0) = true := by simpa using hv
      have hb₂ : (v.alive == 0) = false := by simpa using hv
      simp [hb₁, hb₂, Fin.pos_iff_ne_zero]

/-- An address that brings in value brings in its selected `Vin`'s value. -/
theorem selectedVin_value_of_pos {a : Address} (h : 0 < oldOf env ts tx del a) :
    (selectedVin env ts tx a).value.val = oldOf env ts tx del a := by
  unfold selectedVin oldOf oldValue at *
  cases hv : (selected env ts tx).find? a with
  | none => simp [hv] at h
  | some v =>
    simp only [hv, Option.getD_some] at h ⊢
    split_ifs at h ⊢
    · rfl
    · simp at h

/-- After a successful `createNewBalances`, the inputs are one per participant bringing in
value, in address order. -/
theorem createVins_of_ok (hok : (afterSelection env ts tx del).createNewBalances.1 = true) :
    (afterBalances env ts tx del).createVins =
      ((plusMinus ts).keys.filter fun a => decide (0 < oldOf env ts tx del a)).map fun a =>
        ⟨⟨(selectedVin env ts tx a).hash, (selectedVin env ts tx a).nVout⟩, spendScript⟩ := by
  obtain ⟨-, hvins⟩ := (createNewBalances_spec env ts tx del).2 hok
  unfold createVins
  rw [afterBalances, hvins, List.filterMap_map]
  simp only [Function.comp_def]
  rw [← filterMap_ite_eq_map_filter]
  congr 1
  funext a
  have hs := spendsVin_selectedVin env ts tx del
    (afterSelection env ts tx del).createNewBalances.2 rfl a
  unfold selectedVin at hs ⊢
  rw [hs]

/-- The receipts and the payments of the participants are the same total. -/
theorem sum_inflow_eq_sum_outflow {P : List Address} (hP : P.Nodup)
    (hmem : ∀ a, a ∈ participants ts → a ∈ P) :
    (P.map fun a => (inflow ts a : ℤ)).sum = (P.map fun a => (outflow ts a : ℤ)).sum := by
  rw [← natCast_sum_map, ← natCast_sum_map]
  unfold inflow outflow
  rw [Flow.sum_received _ _ hP fun t ht => hmem _ (mem_participants.mpr ⟨t, ht, Or.inr rfl⟩),
    Flow.sum_sent _ _ hP fun t ht => hmem _ (mem_participants.mpr ⟨t, ht, Or.inl rfl⟩)]

/-- When no participant is negative, the positive balances add up to the value of the spent
`Vin`s. -/
theorem sum_claimedBalance_of_nonneg
    (hnn : ∀ a ∈ participants ts, 0 ≤ claimedBalance env ts tx del a) :
    (((plusMinus ts).keys.filter fun a => decide (0 < claimedBalance env ts tx del a)).map
      fun a => claimedBalance env ts tx del a).sum =
    (((plusMinus ts).keys.filter fun a => decide (0 < oldOf env ts tx del a)).map
      fun a => ((selectedVin env ts tx a).value.val : ℤ)).sum := by
  -- over all participants, balances and payments make up old values and receipts
  have hbal_sum : ((plusMinus ts).keys.map fun a => claimedBalance env ts tx del a).sum +
      ((plusMinus ts).keys.map fun a => (outflow ts a : ℤ)).sum =
      ((plusMinus ts).keys.map fun a => (oldOf env ts tx del a : ℤ)).sum +
      ((plusMinus ts).keys.map fun a => (inflow ts a : ℤ)).sum := by
    rw [← List.sum_map_add, ← List.sum_map_add]
    refine congrArg List.sum (List.map_congr_left fun a _ => ?_)
    unfold claimedBalance
    omega
  have hflow := sum_inflow_eq_sum_outflow ts (plusMinus ts).keys_nodup fun a ha =>
    (mem_keys_plusMinus ts a).mpr ha
  -- dropping the zero balances and the zero old values changes neither sum
  have hpay := sum_map_filter_of_eq_zero (plusMinus ts).keys
    (fun a => decide (0 < claimedBalance env ts tx del a))
    (fun a => claimedBalance env ts tx del a) fun a ha h => by
      have := hnn a ((mem_keys_plusMinus ts a).mp ha)
      simp at h
      omega
  have hold := sum_map_filter_of_eq_zero (plusMinus ts).keys
    (fun a => decide (0 < oldOf env ts tx del a))
    (fun a => (oldOf env ts tx del a : ℤ)) fun a _ h => by simp at h; simp [h]
  have hspend : (((plusMinus ts).keys.filter fun a => decide (0 < oldOf env ts tx del a)).map
      fun a => ((selectedVin env ts tx a).value.val : ℤ)) =
      ((plusMinus ts).keys.filter fun a => decide (0 < oldOf env ts tx del a)).map
        fun a => (oldOf env ts tx del a : ℤ) :=
    List.map_congr_left fun a ha => by
      rw [selectedVin_value_of_pos env ts tx del (by simpa using (List.mem_filter.mp ha).2)]
  rw [hpay, hspend, hold]
  exact add_right_cancel (hbal_sum.trans (congrArg _ hflow))

/-! ### Under the bounds -/

/-- What the EVM, which is not part of the repository, guarantees of the transfers it records
in one execution of `tx`: its accounts hold coins, so every amount it starts from, moves or
leaves is a `CAmount`, and the gas of one execution allows fewer than `2 ^ 64` transfers. Money
may go round a cycle of contracts, so what an address receives is bounded only through the
number of transfers. -/
structure EvmBounds : Prop where
  /-- What a participant brings in, a contract output or the value `tx` carries. -/
  oldOf_le : ∀ a ∈ participants ts, oldOf env ts tx del a ≤ INT64_MAX
  /-- What a participant's account holds after the execution. -/
  claimedBalance_le : ∀ a ∈ participants ts, claimedBalance env ts tx del a ≤ INT64_MAX
  value_le : ∀ t ∈ ts, t.value.val ≤ INT64_MAX
  length_lt : ts.length < 2 ^ 64

section bounded

variable {env ts tx del}

/-- The transfers of one execution move less than `2 ^ 255` in all. -/
theorem EvmBounds.length_mul_lt (hevm : EvmBounds env ts tx del) :
    ts.length * INT64_MAX < 2 ^ 255 :=
  calc ts.length * INT64_MAX ≤ 2 ^ 64 * 2 ^ 63 :=
        Nat.mul_le_mul hevm.length_lt.le (by unfold INT64_MAX; omega)
    _ < 2 ^ 255 := by norm_num

/-- No `u256` sum of `calculatePlusAndMinus` wraps: what an address holds and receives. -/
theorem EvmBounds.oldOf_add_inflow_lt (hevm : EvmBounds env ts tx del) {a : Address}
    (ha : a ∈ participants ts) : oldOf env ts tx del a + inflow ts a < 2 ^ 256 := by
  have hold := hevm.oldOf_le a ha
  have hin : inflow ts a ≤ ts.length * INT64_MAX := Flow.received_le _ _ hevm.value_le a
  have hmoved := hevm.length_mul_lt
  generalize ts.length * INT64_MAX = moved at hin hmoved
  unfold INT64_MAX at hold
  omega

/-- Nor what an address sends. -/
theorem EvmBounds.outflow_lt (hevm : EvmBounds env ts tx del) (a : Address) :
    outflow ts a < 2 ^ 256 := by
  have hout : outflow ts a ≤ ts.length * INT64_MAX := Flow.sent_le _ _ hevm.value_le a
  have hmoved := hevm.length_mul_lt
  omega

/-- Under the bounds, the `u256` test of `createNewBalances` is the sign of the balance. -/
theorem newBalance_lt_iff_of_bounded {a : Address}
    (hsum : oldOf env ts tx del a + inflow ts a < 2 ^ 256) (hout : outflow ts a < 2 ^ 256) :
    (mk' ts tx del).oldValue (selected env ts tx) a + U256.ofNat (inflow ts a) <
      U256.ofNat (outflow ts a) ↔ claimedBalance env ts tx del a < 0 := by
  rw [add_ofNat_lt_ofNat_iff hsum hout, claimedBalance, oldOf]
  omega

/-- Under the bounds, a balance that is not negative is the `u256` balance. -/
theorem val_newBalance_of_bounded {a : Address}
    (hsum : oldOf env ts tx del a + inflow ts a < 2 ^ 256) (hout : outflow ts a < 2 ^ 256)
    (hnn : 0 ≤ claimedBalance env ts tx del a) :
    ((newBalance env ts tx del a).val : ℤ) = claimedBalance env ts tx del a := by
  have hle : outflow ts a ≤ oldOf env ts tx del a + inflow ts a := by
    unfold claimedBalance at hnn
    omega
  rw [newBalance, val_add_ofNat_sub_ofNat hsum hout hle, claimedBalance, oldOf]
  unfold oldOf at hle
  omega

/-- Under the bounds, the output of a participant carries its balance, when that fits in a
`CAmount`. -/
theorem voutFor_newBalance_of_bounded {a : Address}
    (hsum : oldOf env ts tx del a + inflow ts a < 2 ^ 256) (hout : outflow ts a < 2 ^ 256)
    (hnn : 0 ≤ claimedBalance env ts tx del a) (hfit : claimedBalance env ts tx del a ≤ INT64_MAX) :
    voutFor env (a, newBalance env ts tx del a) =
      ⟨claimedBalance env ts tx del a, voutScript env a⟩ := by
  have hval := val_newBalance_of_bounded hsum hout hnn
  have hle : (newBalance env ts tx del a).val ≤ INT64_MAX := by
    rw [← hval] at hfit
    exact_mod_cast hfit
  simp [voutFor, amountOfU256_of_le hle, hval]

theorem newBalance_pos_iff_of_bounded {a : Address}
    (hsum : oldOf env ts tx del a + inflow ts a < 2 ^ 256) (hout : outflow ts a < 2 ^ 256)
    (hnn : 0 ≤ claimedBalance env ts tx del a) :
    0 < newBalance env ts tx del a ↔ 0 < claimedBalance env ts tx del a := by
  rw [← val_newBalance_of_bounded hsum hout hnn, Fin.pos_iff_ne_zero, Ne, Fin.ext_iff,
    Fin.val_zero]
  omega

variable (hsum : ∀ a ∈ participants ts, oldOf env ts tx del a + inflow ts a < 2 ^ 256)
  (hout : ∀ a ∈ participants ts, outflow ts a < 2 ^ 256)
include hsum hout

/-- Under the bounds, `createNewBalances` succeeds exactly when no participant goes
negative. -/
theorem createNewBalances_ok_iff_of_bounded :
    (afterSelection env ts tx del).createNewBalances.1 = true ↔
      ∀ a ∈ participants ts, 0 ≤ claimedBalance env ts tx del a := by
  rw [(createNewBalances_spec env ts tx del).1]
  refine forall_congr' fun a => ?_
  rw [mem_keys_plusMinus]
  refine forall_congr' fun ha => ?_
  rw [newBalance_lt_iff_of_bounded (hsum a ha) (hout a ha), not_lt]

/-- Under the bounds, the outputs of `createVout` after a successful `createNewBalances`:
one per participant with a positive balance, in address order, carrying the balance; and
`nVouts` numbers each of them with the index of its output. -/
theorem createVout_of_bounded
    (hfit : ∀ a ∈ participants ts, claimedBalance env ts tx del a ≤ INT64_MAX)
    (hok : (afterSelection env ts tx del).createNewBalances.1 = true)
    (hflag : (createCondensingTX env (mk' ts tx del)).2.voutOverflow = false) :
    ((afterBalances env ts tx del).createVout env).1 =
      ((plusMinus ts).keys.filter fun a => decide (0 < claimedBalance env ts tx del a)).map
        (fun a => ⟨claimedBalance env ts tx del a, voutScript env a⟩) ∧
    ∀ a ∈ participants ts, 0 < claimedBalance env ts tx del a →
      ∃ k, ((afterBalances env ts tx del).createVout env).2.nVouts.find? a = some k ∧
        ((afterBalances env ts tx del).createVout env).1[k]? =
          some ⟨claimedBalance env ts tx del a, voutScript env a⟩ := by
  have hnn : ∀ a ∈ participants ts, 0 ≤ claimedBalance env ts tx del a :=
    (createNewBalances_ok_iff_of_bounded hsum hout).mp hok
  have hfor : ∀ a ∈ participants ts, voutFor env (a, newBalance env ts tx del a) =
      ⟨claimedBalance env ts tx del a, voutScript env a⟩ :=
    fun a ha => voutFor_newBalance_of_bounded (hsum a ha) (hout a ha) (hnn a ha) (hfit a ha)
  have hpos : ∀ a ∈ participants ts,
      (0 < newBalance env ts tx del a ↔ 0 < claimedBalance env ts tx del a) :=
    fun a ha => newBalance_pos_iff_of_bounded (hsum a ha) (hout a ha) (hnn a ha)
  obtain ⟨hbal, -⟩ := (createNewBalances_spec env ts tx del).2 hok
  obtain ⟨h₁, h₂, -⟩ := voutLoop_spec env _ (OrdMap.keys_nodup _) [] 0 _ rfl
    (voutLoop_flag_of_ok env ts tx del hok hflag)
  have hentries : (afterBalances env ts tx del).balances.entries =
      (plusMinus ts).keys.map fun a => (a, newBalance env ts tx del a) := hbal
  refine ⟨?_, fun a ha hpa => ?_⟩
  · change (voutLoop env _ [] 0 _).1 = _
    rw [h₁, List.nil_append, hentries, List.filter_map, List.map_map,
      List.filter_congr (q := fun a => decide (0 < claimedBalance env ts tx del a))
        fun a ha => by simp [hpos a ((mem_keys_plusMinus ts a).mp ha)]]
    exact List.map_congr_left fun a ha =>
      hfor a ((mem_keys_plusMinus ts a).mp (List.mem_filter.mp ha).1)
  · have hmem : (a, newBalance env ts tx del a) ∈ (afterBalances env ts tx del).balances.entries := by
      rw [hentries]
      exact List.mem_map_of_mem ((mem_keys_plusMinus ts a).mpr ha)
    obtain ⟨k, hk, hout'⟩ := h₂ _ hmem ((hpos a ha).mpr hpa)
    exact ⟨k, hk, by rw [← hfor a ha]; exact hout'⟩

end bounded

/-- For the transfers the EVM records, the value conservation of `createCondensingTX`. The
proof reads the closed forms of the passes: `createNewBalances_spec` for the balances and the
selected `Vin`s, `voutLoop_spec` for the outputs, and the flows of `Flow` for the sums. -/
theorem valueConservation_of_bounded (hevm : EvmBounds env ts tx del) :
    ValueConservation env ts tx del := by
  have hsum := fun a (ha : a ∈ participants ts) => hevm.oldOf_add_inflow_lt ha
  have hout := fun a (_ : a ∈ participants ts) => hevm.outflow_lt a
  have hok_iff := createNewBalances_ok_iff_of_bounded hsum hout
  refine ⟨fun ⟨a, ha, hneg⟩ => ?_, fun hne hflag => ?_⟩
  · -- a negative address makes the loop of `createNewBalances` fail
    have hfail : (afterSelection env ts tx del).createNewBalances.1 = false := by
      by_contra hne
      exact absurd (hok_iff.mp (by simpa using hne) a ha) (not_le.mpr hneg)
    rw [createCondensingTX_mk'_eq]
    simp [hfail]
  · have hok := createNewBalances_ok_of_ne_empty env ts tx del hne
    have htx := fst_createCondensingTX_of_ne_empty env ts tx del hne
    have hvout := (createVout_of_bounded hsum hout hevm.claimedBalance_le hok hflag).1
    have hP := (plusMinus ts).keys_pairwise
    refine ⟨_, _, hP.filter _, hP.filter _, fun a => ?_, fun a => ?_,
      by rw [htx, createVins_of_ok env ts tx del hok], by rw [htx, hvout], ?_⟩
    · simp [List.mem_filter, mem_keys_plusMinus]
    · simp [List.mem_filter, mem_keys_plusMinus]
    rw [htx, hvout, List.map_map]
    exact sum_claimedBalance_of_nonneg env ts tx del (hok_iff.mp hok)

/-- The repository's `condensingtransactionbehavior_tests` scenario: the sender pays `8000`
into a contract that shares it on through two more. -/
theorem valueConservation_shareTest :
    ValueConservation ⟨fun _ => none, fun a => a ≠ 9⟩
      [⟨9, 1, 8000⟩, ⟨1, 2, 4000⟩, ⟨2, 3, 2000⟩, ⟨3, 1, 1000⟩, ⟨3, 2, 500⟩] ⟨9, 8000, 77, 0⟩ [9] :=
  valueConservation_of_bounded _ _ _ _ ⟨forall_mem_participants.mpr (by decide +kernel),
    forall_mem_participants.mpr (by decide +kernel), by decide, by decide⟩

/-- Transfers that no EVM records, outside `EvmBounds`, make the sums wrap: `1` pays `2` the
amounts `2 ^ 255`, `2 ^ 255` and `1` from a `Vin` worth `1`. As numbers `1` goes negative; in
`u256` its payments are `1`, so the transaction is made and `2` is paid `1`. -/
theorem valueConservation_fails :
    ¬ValueConservation ⟨fun a => if a = 1 then some ⟨7, 0, 1, 1⟩ else none, fun _ => true⟩
      [⟨1, 2, ⟨2 ^ 255, by decide⟩⟩, ⟨1, 2, ⟨2 ^ 255, by decide⟩⟩, ⟨1, 2, 1⟩] ⟨3, 0, 5, 0⟩ [] := by
  intro h
  have hempty := h.empty_of_negative ⟨1, by decide +kernel, by decide +kernel⟩
  revert hempty
  decide +kernel

end value

end CondensingTX

end HydraNode
