import Mathlib

/-!
# Flows along a list of transfers

A list of transfers, each with a source, a target and a weight, moves weight between
nodes. What a node receives and what it sends are sums over the list; summed over any
duplicate-free list of nodes that contains every endpoint, both come to the total weight.
That is the bookkeeping identity behind every "value is conserved" statement: an account
balance `old + received - sent` summed over all accounts is the total of the old values.

## Main definitions

* `Flow.received`, `Flow.sent` — the weight a node receives and sends
* `Flow.endpoints` — the sources and targets, in order of appearance

## Main results

* `Flow.sum_received`, `Flow.sum_sent` — summed over the endpoints, each is the total weight
-/

namespace HydraNode

namespace Flow

variable {ε α : Type*} (src dst : ε → α) (w : ε → ℕ)

/-- The sources and targets of the transfers, in order of appearance. -/
def endpoints (l : List ε) : List α := l.flatMap fun e => [src e, dst e]

theorem mem_endpoints {l : List ε} {a : α} :
    a ∈ endpoints src dst l ↔ ∃ e ∈ l, src e = a ∨ dst e = a := by
  simp [endpoints, eq_comm]

theorem endpoints_append (l l' : List ε) :
    endpoints src dst (l ++ l') = endpoints src dst l ++ endpoints src dst l' := by
  simp [endpoints]

variable [DecidableEq α]

/-- The weight that `a` receives. -/
def received (l : List ε) (a : α) : ℕ := (l.map fun e => if dst e = a then w e else 0).sum

/-- The weight that `a` sends. -/
def sent (l : List ε) (a : α) : ℕ := (l.map fun e => if src e = a then w e else 0).sum

@[simp] theorem received_nil (a : α) : received dst w [] a = 0 := rfl

@[simp] theorem sent_nil (a : α) : sent src w [] a = 0 := rfl

theorem received_append (l l' : List ε) (a : α) :
    received dst w (l ++ l') a = received dst w l a + received dst w l' a := by
  simp [received]

theorem sent_append (l l' : List ε) (a : α) :
    sent src w (l ++ l') a = sent src w l a + sent src w l' a := by
  simp [sent]

/-- With every weight at most `m`, a node receives at most `m` per transfer. -/
theorem received_le {l : List ε} {m : ℕ} (h : ∀ e ∈ l, w e ≤ m) (a : α) :
    received dst w l a ≤ l.length * m := by
  have := List.sum_le_card_nsmul (l.map fun e => if dst e = a then w e else 0) m fun x hx => by
    obtain ⟨e, he, rfl⟩ := List.mem_map.mp hx
    split_ifs
    · exact h e he
    · exact Nat.zero_le m
  simpa [received] using this

/-- With every weight at most `m`, a node sends at most `m` per transfer. -/
theorem sent_le {l : List ε} {m : ℕ} (h : ∀ e ∈ l, w e ≤ m) (a : α) :
    sent src w l a ≤ l.length * m := by
  have := List.sum_le_card_nsmul (l.map fun e => if src e = a then w e else 0) m fun x hx => by
    obtain ⟨e, he, rfl⟩ := List.mem_map.mp hx
    split_ifs
    · exact h e he
    · exact Nat.zero_le m
  simpa [sent] using this

@[simp] theorem received_singleton (e : ε) (a : α) :
    received dst w [e] a = if dst e = a then w e else 0 := by
  simp [received]

@[simp] theorem sent_singleton (e : ε) (a : α) :
    sent src w [e] a = if src e = a then w e else 0 := by
  simp [sent]

/-- A node outside the endpoints receives nothing. -/
theorem received_eq_zero {l : List ε} {a : α} (h : a ∉ endpoints src dst l) :
    received dst w l a = 0 := by
  rw [mem_endpoints] at h
  refine List.sum_eq_zero fun x hx => ?_
  obtain ⟨e, he, rfl⟩ := List.mem_map.mp hx
  have : dst e ≠ a := fun hd => h ⟨e, he, Or.inr hd⟩
  simp [this]

/-- A node outside the endpoints sends nothing. -/
theorem sent_eq_zero {l : List ε} {a : α} (h : a ∉ endpoints src dst l) :
    sent src w l a = 0 := by
  rw [mem_endpoints] at h
  refine List.sum_eq_zero fun x hx => ?_
  obtain ⟨e, he, rfl⟩ := List.mem_map.mp hx
  have : src e ≠ a := fun hs => h ⟨e, he, Or.inl hs⟩
  simp [this]

/-- One node of a duplicate-free list picks out one summand. -/
private theorem sum_ite_eq_of_nodup {P : List α} (hP : P.Nodup) {b : α} (hb : b ∈ P) (x : ℕ) :
    (P.map fun a => if b = a then x else 0).sum = x := by
  induction P with
  | nil => simp at hb
  | cons a t ih =>
    obtain ⟨ha, ht⟩ := List.nodup_cons.mp hP
    by_cases hba : b = a
    · -- `b` is the head, so it occurs nowhere in the tail
      subst hba
      have hzero : (t.map fun a' => if b = a' then x else 0).sum = 0 :=
        List.sum_eq_zero fun y hy => by
          obtain ⟨a', ha', rfl⟩ := List.mem_map.mp hy
          exact if_neg fun (h : b = a') => ha (h ▸ ha')
      simp [hzero]
    · have hbt : b ∈ t := (List.mem_cons.mp hb).resolve_left hba
      simp [hba, ih ht hbt]

/-- Summed over a duplicate-free list of nodes containing every target, the receipts are
the total weight. The induction is on the transfers: each one adds its weight to exactly
one node of the list. -/
theorem sum_received {l : List ε} {P : List α} (hP : P.Nodup) (hdst : ∀ e ∈ l, dst e ∈ P) :
    (P.map fun a => received dst w l a).sum = (l.map w).sum := by
  induction l with
  | nil => simp
  | cons e t ih =>
    have hsplit : ∀ a, received dst w (e :: t) a
        = (if dst e = a then w e else 0) + received dst w t a := by
      intro a
      rw [← List.singleton_append, received_append, received_singleton]
    simp only [hsplit, List.sum_map_add, List.map_cons, List.sum_cons]
    rw [sum_ite_eq_of_nodup hP (hdst e List.mem_cons_self),
      ih fun e' he' => hdst e' (List.mem_cons_of_mem e he')]

/-- Summed over a duplicate-free list of nodes containing every source, the payments are
the total weight. -/
theorem sum_sent {l : List ε} {P : List α} (hP : P.Nodup) (hsrc : ∀ e ∈ l, src e ∈ P) :
    (P.map fun a => sent src w l a).sum = (l.map w).sum :=
  sum_received src w hP hsrc

end Flow

/-- Dropping summands that vanish does not change a sum. -/
theorem sum_map_filter_of_eq_zero {β M : Type*} [AddCommMonoid M] (l : List β) (p : β → Bool)
    (f : β → M) (h : ∀ b ∈ l, p b = false → f b = 0) :
    ((l.filter p).map f).sum = (l.map f).sum := by
  induction l with
  | nil => rfl
  | cons b t ih =>
    have ih' := ih fun b' hb' => h b' (List.mem_cons_of_mem _ hb')
    by_cases hb : p b = true
    · simp [hb, ih']
    · have hf : f b = 0 := h b List.mem_cons_self (by simpa using hb)
      simp [hb, ih', hf]

/-- A sum of naturals read as an integer. -/
theorem natCast_sum_map {β : Type*} (l : List β) (f : β → ℕ) :
    ((l.map f).sum : ℤ) = (l.map fun b => (f b : ℤ)).sum := by
  induction l with
  | nil => rfl
  | cons b t ih => simp [ih]

/-- Keeping the elements that pass a test, transformed, is a `filterMap`. -/
theorem filterMap_ite_eq_map_filter {β γ : Type*} (l : List β) (p : β → Bool) (g : β → γ) :
    l.filterMap (fun b => if p b then some (g b) else none) = (l.filter p).map g := by
  induction l with
  | nil => rfl
  | cons b t ih => by_cases hb : p b <;> simp [hb, ih]

end HydraNode
