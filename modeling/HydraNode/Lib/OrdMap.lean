import Mathlib

/-!
# Ordered finite maps

A finite map whose entries are kept in strictly increasing key order. This is the
observable behaviour of a balanced search tree such as `std::map` or `std::set`: lookup by
key, assignment through `operator[]`, and iteration in key order. Nothing here depends on
the tree itself, so the map is a sorted association list carrying its sortedness as a field.

## Scope

The library knows nothing about the programs that use it. It supplies what their loops
need: how `find?` reads back an `insert`, how the key set grows, and how a sum over the
entries changes when one entry is added or overwritten. Sums are taken over an arbitrary
additive commutative monoid, so that the same lemmas serve natural-number and integer
accounting.

## Main definitions

* `OrdMap` — entries in strictly increasing key order
* `OrdMap.find?`, `OrdMap.insert`, `OrdMap.erase`, `OrdMap.touch` — lookup, assignment,
  removal, and the insertion of a default value that a read through `operator[]` performs
* `OrdMap.sumBy` — a sum over the entries, in iteration order
* `OrdMap.insertMany` — `std::map::insert(first, last)`

## Main results

* `OrdMap.find?_insert`, `OrdMap.find?_erase` — read after write
* `OrdMap.mem_keys_insert` — the key set of an assignment
* `OrdMap.sumBy_insert_of_find?_eq_none`, `sumBy_insert_of_find?_eq_some`,
  `sumBy_erase_of_find?_eq_some` — how a sum moves
* `OrdMap.sumBy_modify_add` — `m[k] += d` adds `d` to the sum of the values
* `OrdMap.ext_find?` — a map is determined by its lookups
* `OrdMap.find?_foldl_modify_add`, `OrdMap.find?_foldl_modify_add_of_contains`,
  `OrdMap.find?_insertMany` — the lookups after a merge
-/

namespace HydraNode

/-- A finite map with its entries listed in strictly increasing key order. -/
structure OrdMap (α : Type*) (β : Type*) [LinearOrder α] where
  /-- The entries, in iteration order. -/
  entries : List (α × β)
  /-- Keys strictly increase along the list, so in particular no key repeats. -/
  sorted : (entries.map Prod.fst).Pairwise (· < ·)

namespace OrdMap

variable {α β : Type*} [LinearOrder α]

/-! ## The operations on entry lists -/

/-- The value stored under `k`, searching the entry list from the front. -/
def findList (k : α) : List (α × β) → Option β
  | [] => none
  | e :: t => if e.1 = k then some e.2 else findList k t

/-- Assign `v` to `k`: overwrite the entry of `k`, or insert a new one in key order. -/
def insertList (k : α) (v : β) : List (α × β) → List (α × β)
  | [] => [(k, v)]
  | e :: t =>
    if k < e.1 then (k, v) :: e :: t
    else if k = e.1 then (k, v) :: t
    else e :: insertList k v t

theorem findList_insertList (k k' : α) (v : β) (l : List (α × β)) :
    findList k' (insertList k v l) = if k = k' then some v else findList k' l := by
  induction l with
  | nil => simp [insertList, findList]
  | cons e t ih =>
    -- the three branches of `insertList`; in the last one `k ≠ e.1` separates the lookups
    by_cases h₁ : k < e.1
    · simp [insertList, h₁, findList]
    · by_cases h₂ : k = e.1
      · subst h₂
        by_cases hk : e.1 = k' <;> simp [insertList, findList, hk]
      · by_cases hk : k = k'
        · subst hk
          simp [insertList, h₁, h₂, findList, Ne.symm h₂, ih]
        · simp [insertList, h₁, h₂, findList, hk, ih]

theorem mem_keys_insertList (k k' : α) (v : β) (l : List (α × β)) :
    k' ∈ (insertList k v l).map Prod.fst ↔ k' = k ∨ k' ∈ l.map Prod.fst := by
  induction l with
  | nil => simp [insertList]
  | cons e t ih =>
    simp only [insertList]
    split_ifs with h₁ h₂
    · simp
    · subst h₂; simp
    · simp only [List.map_cons, List.mem_cons, ih]
      tauto

/-- Every key of `insertList k v l` is `k` or a key of `l`; the sorted order survives. -/
theorem pairwise_insertList (k : α) (v : β) {l : List (α × β)}
    (hl : (l.map Prod.fst).Pairwise (· < ·)) :
    ((insertList k v l).map Prod.fst).Pairwise (· < ·) := by
  induction l with
  | nil => simp [insertList]
  | cons e t ih =>
    rw [List.map_cons, List.pairwise_cons] at hl
    simp only [insertList]
    split_ifs with h₁ h₂
    · simp only [List.map_cons, List.pairwise_cons, List.mem_cons]
      refine ⟨?_, hl.1, hl.2⟩
      rintro a (rfl | ha)
      · exact h₁
      · exact h₁.trans (hl.1 a ha)
    · subst h₂
      simpa using hl
    · have hek : e.1 < k := lt_of_le_of_ne (not_lt.mp h₁) (Ne.symm h₂)
      simp only [List.map_cons, List.pairwise_cons]
      refine ⟨fun a ha => ?_, ih hl.2⟩
      rcases (mem_keys_insertList k a v t).mp ha with rfl | ha
      · exact hek
      · exact hl.1 a ha

/-- Remove the entries of `k`. -/
def eraseList (k : α) (l : List (α × β)) : List (α × β) := l.filter fun e => !decide (e.1 = k)

theorem eraseList_cons (k : α) (e : α × β) (l : List (α × β)) :
    eraseList k (e :: l) = if e.1 = k then eraseList k l else e :: eraseList k l := by
  by_cases he : e.1 = k <;> simp [eraseList, he]

theorem findList_eraseList (k k' : α) (l : List (α × β)) :
    findList k' (eraseList k l) = if k = k' then none else findList k' l := by
  induction l with
  | nil => simp [eraseList, findList]
  | cons e t ih =>
    rw [eraseList_cons]
    by_cases he : e.1 = k
    · -- the entry of `k` is dropped
      rw [if_pos he, ih]
      by_cases hk : k = k'
      · simp [hk]
      · simp [findList, hk, he]
    · rw [if_neg he, findList, findList, ih]
      by_cases hk : k = k'
      · subst hk
        simp [he]
      · simp [hk]

theorem pairwise_eraseList (k : α) {l : List (α × β)} (hl : (l.map Prod.fst).Pairwise (· < ·)) :
    ((eraseList k l).map Prod.fst).Pairwise (· < ·) :=
  hl.sublist (List.filter_sublist.map Prod.fst)

/-! ## Maps -/

/-- The empty map. -/
def empty : OrdMap α β := ⟨[], List.Pairwise.nil⟩

instance : EmptyCollection (OrdMap α β) := ⟨empty⟩

/-- The keys, in iteration order. -/
def keys (m : OrdMap α β) : List α := m.entries.map Prod.fst

/-- Lookup: `std::map::find`. -/
def find? (m : OrdMap α β) (k : α) : Option β := findList k m.entries

/-- `std::map::count`, as a boolean. -/
def contains (m : OrdMap α β) (k : α) : Bool := (m.find? k).isSome

/-- Assignment `m[k] = v`. -/
def insert (m : OrdMap α β) (k : α) (v : β) : OrdMap α β :=
  ⟨insertList k v m.entries, pairwise_insertList k v m.sorted⟩

/-- Removal: `std::map::erase(k)`. -/
def erase (m : OrdMap α β) (k : α) : OrdMap α β :=
  ⟨eraseList k m.entries, pairwise_eraseList k m.sorted⟩

/-- The side effect of reading `m[k]`: a default value is inserted when `k` is absent. -/
def touch (m : OrdMap α β) (k : α) (d : β) : OrdMap α β :=
  if m.contains k then m else m.insert k d

/-- `m[k] = f(m[k])`, where the read finds the default `d` when `k` is absent. -/
def modify (m : OrdMap α β) (k : α) (d : β) (f : β → β) : OrdMap α β :=
  m.insert k (f ((m.find? k).getD d))

/-- `m[k]` read with a default, without the insertion. -/
def findD (m : OrdMap α β) (k : α) (d : β) : β := (m.find? k).getD d

/-- A sum over the entries, in iteration order. -/
def sumBy {M : Type*} [AddCommMonoid M] (m : OrdMap α β) (f : α → β → M) : M :=
  (m.entries.map fun e => f e.1 e.2).sum

/-- `std::map::insert(first, last)`: each entry is inserted unless its key is already there. -/
def insertMany (m : OrdMap α β) (l : List (α × β)) : OrdMap α β :=
  l.foldl (fun m p => if m.contains p.1 then m else m.insert p.1 p.2) m

@[simp] theorem find?_empty (k : α) : (∅ : OrdMap α β).find? k = none := rfl

@[simp] theorem keys_empty : (∅ : OrdMap α β).keys = [] := rfl

@[simp] theorem sumBy_empty {M : Type*} [AddCommMonoid M] (f : α → β → M) :
    (∅ : OrdMap α β).sumBy f = 0 := rfl

theorem find?_insert (m : OrdMap α β) (k k' : α) (v : β) :
    (m.insert k v).find? k' = if k = k' then some v else m.find? k' :=
  findList_insertList k k' v m.entries

@[simp] theorem find?_insert_self (m : OrdMap α β) (k : α) (v : β) :
    (m.insert k v).find? k = some v := by
  simp [find?_insert]

theorem find?_insert_of_ne (m : OrdMap α β) {k k' : α} (v : β) (h : k ≠ k') :
    (m.insert k v).find? k' = m.find? k' := by
  simp [find?_insert, h]

theorem find?_erase (m : OrdMap α β) (k k' : α) :
    (m.erase k).find? k' = if k = k' then none else m.find? k' :=
  findList_eraseList k k' m.entries

@[simp] theorem find?_erase_self (m : OrdMap α β) (k : α) : (m.erase k).find? k = none := by
  simp [find?_erase]

theorem find?_erase_of_ne (m : OrdMap α β) {k k' : α} (h : k ≠ k') :
    (m.erase k).find? k' = m.find? k' := by
  simp [find?_erase, h]

theorem find?_modify (m : OrdMap α β) (k k' : α) (d : β) (f : β → β) :
    (m.modify k d f).find? k' = if k = k' then some (f ((m.find? k).getD d)) else m.find? k' :=
  find?_insert m k k' _

theorem mem_keys_insert (m : OrdMap α β) (k k' : α) (v : β) :
    k' ∈ (m.insert k v).keys ↔ k' = k ∨ k' ∈ m.keys :=
  mem_keys_insertList k k' v m.entries

theorem mem_keys_modify (m : OrdMap α β) (k k' : α) (d : β) (f : β → β) :
    k' ∈ (m.modify k d f).keys ↔ k' = k ∨ k' ∈ m.keys :=
  mem_keys_insert m k k' _

theorem keys_pairwise (m : OrdMap α β) : m.keys.Pairwise (· < ·) := m.sorted

theorem keys_nodup (m : OrdMap α β) : m.keys.Nodup := m.sorted.nodup

/-! ## Entries and lookups -/

theorem findList_of_mem {l : List (α × β)} (hl : (l.map Prod.fst).Pairwise (· < ·))
    {k : α} {v : β} (h : (k, v) ∈ l) : findList k l = some v := by
  induction l with
  | nil => simp at h
  | cons e t ih =>
    rw [List.map_cons, List.pairwise_cons] at hl
    rcases List.mem_cons.mp h with rfl | h
    · simp [findList]
    · -- a later entry has a larger key, so the head does not match
      have hlt : e.1 < k := hl.1 k (List.mem_map_of_mem (f := Prod.fst) h)
      simp [findList, hlt.ne, ih hl.2 h]

theorem findList_eq_none {l : List (α × β)} {k : α} (h : k ∉ l.map Prod.fst) :
    findList k l = none := by
  induction l with
  | nil => rfl
  | cons e t ih =>
    simp only [List.map_cons, List.mem_cons, not_or] at h
    simp [findList, Ne.symm h.1, ih h.2]

theorem find?_of_mem_entries (m : OrdMap α β) {k : α} {v : β} (h : (k, v) ∈ m.entries) :
    m.find? k = some v :=
  findList_of_mem m.sorted h

theorem find?_eq_none_iff (m : OrdMap α β) {k : α} : m.find? k = none ↔ k ∉ m.keys := by
  constructor
  · intro h hk
    obtain ⟨e, he, rfl⟩ := List.mem_map.mp hk
    rw [m.find?_of_mem_entries (k := e.1) (v := e.2) he] at h
    exact Option.some_ne_none _ h
  · exact findList_eq_none

theorem mem_keys_of_find?_eq_some (m : OrdMap α β) {k : α} {v : β} (h : m.find? k = some v) :
    k ∈ m.keys := by
  by_contra hk
  rw [(m.find?_eq_none_iff).mpr hk] at h
  exact Option.some_ne_none v h.symm

/-- A map is determined, entry by entry, by its keys and its lookups. -/
theorem entries_eq_map_of_find? (m : OrdMap α β) {P : List α} (f : α → β) (hk : m.keys = P)
    (hf : ∀ k ∈ P, m.find? k = some (f k)) : m.entries = P.map fun k => (k, f k) := by
  have hval : ∀ e ∈ m.entries, e = (e.1, f e.1) := by
    intro e he
    have h₁ := m.find?_of_mem_entries (k := e.1) (v := e.2) he
    rw [hf e.1 (hk ▸ List.mem_map_of_mem he)] at h₁
    rw [Option.some_inj.mp h₁]
  calc m.entries = m.entries.map fun e => (e.1, f e.1) := by
        conv_lhs => rw [← List.map_id m.entries]
        exact List.map_congr_left hval
    _ = P.map fun k => (k, f k) := by rw [← hk, keys, List.map_map]; rfl

/-- Keys are sorted, so the key list is fixed by which keys occur. -/
theorem keys_eq_of_mem_iff (m : OrdMap α β) {P : List α} (hP : P.Pairwise (· < ·))
    (h : ∀ k, k ∈ m.keys ↔ k ∈ P) : m.keys = P :=
  List.Pairwise.eq_of_mem_iff m.sorted hP h

theorem mem_keys_iff_find?_ne_none (m : OrdMap α β) {k : α} : k ∈ m.keys ↔ m.find? k ≠ none := by
  rw [Ne, find?_eq_none_iff, not_not]

theorem mem_of_findList_eq_some {k : α} {v : β} {l : List (α × β)} (h : findList k l = some v) :
    (k, v) ∈ l := by
  induction l with
  | nil => cases h
  | cons e t ih =>
    simp only [findList] at h
    split_ifs at h with he
    · cases h
      subst he
      exact List.mem_cons_self
    · exact List.mem_cons_of_mem e (ih h)

/-- An entry is in the map exactly when the lookup of its key finds its value. -/
theorem mem_entries_iff (m : OrdMap α β) {e : α × β} : e ∈ m.entries ↔ m.find? e.1 = some e.2 :=
  ⟨fun h => m.find?_of_mem_entries (k := e.1) (v := e.2) h, fun h => mem_of_findList_eq_some h⟩

/-- Maps with the same lookups are equal. -/
theorem ext_find? {m m' : OrdMap α β} (h : ∀ k, m.find? k = m'.find? k) : m = m' := by
  -- ordering entries by their keys is a strict order, and both entry lists are sorted for it
  have : Std.Irrefl fun a b : α × β => a.1 < b.1 := ⟨fun a => lt_irrefl a.1⟩
  have : Std.Antisymm fun a b : α × β => a.1 < b.1 :=
    ⟨fun _ _ hab hba => absurd (hab.trans hba) (lt_irrefl _)⟩
  have hentries : m.entries = m'.entries :=
    List.Pairwise.eq_of_mem_iff (List.pairwise_map.mp m.sorted) (List.pairwise_map.mp m'.sorted)
      fun e => by rw [mem_entries_iff, mem_entries_iff, h]
  cases m
  cases m'
  cases hentries
  rfl

/-! ## `touch` -/

theorem find?_touch (m : OrdMap α β) (k k' : α) (d : β) :
    (m.touch k d).find? k' = if k = k' ∧ m.find? k = none then some d else m.find? k' := by
  unfold touch contains
  cases h : m.find? k with
  | none =>
    by_cases hk : k = k'
    · subst hk; simp
    · simp [find?_insert_of_ne _ _ hk, hk]
  | some w => simp

theorem find?_touch_of_ne (m : OrdMap α β) {k k' : α} (d : β) (h : k ≠ k') :
    (m.touch k d).find? k' = m.find? k' := by
  simp [find?_touch, h]

theorem find?_touch_self (m : OrdMap α β) (k : α) (d : β) :
    (m.touch k d).find? k = some ((m.find? k).getD d) := by
  cases h : m.find? k <;> simp [find?_touch, h]

theorem mem_keys_touch (m : OrdMap α β) (k k' : α) (d : β) :
    k' ∈ (m.touch k d).keys ↔ k' = k ∨ k' ∈ m.keys := by
  unfold touch
  split
  · rename_i h
    have hk : k ∈ m.keys := by
      by_contra hk
      simp [contains, (m.find?_eq_none_iff).mpr hk] at h
    constructor
    · exact Or.inr
    · rintro (rfl | h)
      · exact hk
      · exact h
  · exact m.mem_keys_insert k k' d

/-! ## Sums over the entries -/

section sums

variable {M : Type*} [AddCommMonoid M] (g : α × β → M)

/-- Assigning a new key adds its entry to any sum over the entries. -/
theorem sum_insertList_of_findList_eq_none {k : α} (v : β) {l : List (α × β)}
    (h : findList k l = none) :
    ((insertList k v l).map g).sum = (l.map g).sum + g (k, v) := by
  induction l with
  | nil => simp [insertList]
  | cons e t ih =>
    have hne : e.1 ≠ k := fun he => by simp [findList, he] at h
    have ht : findList k t = none := by simpa [findList, hne] using h
    by_cases h₁ : k < e.1
    · simp [insertList, h₁, add_comm]
    · simp [insertList, h₁, Ne.symm hne, ih ht, add_assoc]

/-- Overwriting a key replaces its entry in any sum over the entries. Keys are sorted, so the
key sits at one place. -/
theorem sum_insertList_of_findList_eq_some {k : α} (v : β) {v' : β} {l : List (α × β)}
    (hl : (l.map Prod.fst).Pairwise (· < ·)) (h : findList k l = some v') :
    ((insertList k v l).map g).sum + g (k, v') = (l.map g).sum + g (k, v) := by
  induction l with
  | nil => simp [findList] at h
  | cons e t ih =>
    rw [List.map_cons, List.pairwise_cons] at hl
    by_cases he : e.1 = k
    · -- the key is at the head: its old entry is `e`
      have hv : e.2 = v' := by simpa [findList, he] using h
      obtain ⟨a, b⟩ := e
      simp only at he hv
      subst he hv
      simp only [insertList, lt_irrefl, if_false, if_true, List.map_cons, List.sum_cons]
      ac_rfl
    · have ht : findList k t = some v' := by simpa [findList, he] using h
      have h₁ : ¬k < e.1 := by
        intro hk
        have hmem : k ∈ t.map Prod.fst := by
          by_contra hn
          rw [findList_eq_none hn] at ht
          cases ht
        exact lt_asymm hk (hl.1 k hmem)
      simp only [insertList, h₁, if_false, Ne.symm he, List.map_cons, List.sum_cons]
      rw [add_assoc, ih hl.2 ht, add_assoc]

/-- Removing a key takes its entry out of any sum over the entries. Keys are sorted, so the
key sits at one place. -/
theorem sum_eraseList_of_findList_eq_some {k : α} {v : β} {l : List (α × β)}
    (hl : (l.map Prod.fst).Pairwise (· < ·)) (h : findList k l = some v) :
    ((eraseList k l).map g).sum + g (k, v) = (l.map g).sum := by
  induction l with
  | nil => simp [findList] at h
  | cons e t ih =>
    rw [List.map_cons, List.pairwise_cons] at hl
    by_cases he : e.1 = k
    · -- the key is at the head, and no later entry has it
      have hv : e.2 = v := by simpa [findList, he] using h
      have hrest : eraseList k t = t := by
        refine List.filter_eq_self.mpr fun e' he' => ?_
        have hlt : e.1 < e'.1 := hl.1 e'.1 (List.mem_map_of_mem he')
        simpa [← he] using hlt.ne'
      obtain ⟨a, b⟩ := e
      simp only at he hv
      subst he hv
      simp [eraseList_cons, hrest, add_comm]
    · have ht : findList k t = some v := by simpa [findList, he] using h
      simp [eraseList_cons, he, add_assoc, ih hl.2 ht]

end sums

theorem sumBy_insert_of_find?_eq_none {M : Type*} [AddCommMonoid M] (m : OrdMap α β)
    (f : α → β → M) {k : α} (v : β) (h : m.find? k = none) :
    (m.insert k v).sumBy f = m.sumBy f + f k v :=
  sum_insertList_of_findList_eq_none (fun e => f e.1 e.2) v h

theorem sumBy_insert_of_find?_eq_some {M : Type*} [AddCommMonoid M] (m : OrdMap α β)
    (f : α → β → M) {k : α} (v : β) {v' : β} (h : m.find? k = some v') :
    (m.insert k v).sumBy f + f k v' = m.sumBy f + f k v :=
  sum_insertList_of_findList_eq_some (fun e => f e.1 e.2) v m.sorted h

theorem sumBy_erase_of_find?_eq_some {M : Type*} [AddCommMonoid M] (m : OrdMap α β)
    (f : α → β → M) {k : α} {v : β} (h : m.find? k = some v) :
    (m.erase k).sumBy f + f k v = m.sumBy f :=
  sum_eraseList_of_findList_eq_some (fun e => f e.1 e.2) m.sorted h

/-- `m[k] += d` on a map of values: the sum of the values grows by `d`. -/
theorem sumBy_modify_add {M : Type*} [AddCommGroup M] (m : OrdMap α M) (k : α) (d : M) :
    (m.modify k 0 (· + d)).sumBy (fun _ x => x) = m.sumBy (fun _ x => x) + d := by
  unfold modify
  cases h : m.find? k with
  | none => simp [sumBy_insert_of_find?_eq_none _ _ _ h]
  | some x =>
    have := sumBy_insert_of_find?_eq_some m (fun _ x => x) (x + d) h
    simp only [Option.getD_some]
    rw [← add_right_cancel_iff (a := x), this, add_assoc, add_comm d x]

/-! ## Merging a list of entries -/

/-- `m[k] += v` for each entry of a list with distinct keys: a key of the list finds its value
added to what `m` held under it, or to `0`; another key finds what `m` held. -/
theorem find?_foldl_modify_add [AddMonoid β] {l : List (α × β)}
    (hl : (l.map Prod.fst).Pairwise (· < ·)) (m : OrdMap α β) (k : α) :
    (l.foldl (fun m p => m.modify p.1 0 (· + p.2)) m).find? k =
      (findList k l).elim (m.find? k) fun v => some (m.findD k 0 + v) := by
  induction l generalizing m with
  | nil => rfl
  | cons p t ih =>
    rw [List.map_cons, List.pairwise_cons] at hl
    rw [List.foldl_cons, ih hl.2]
    by_cases hk : p.1 = k
    · -- the later entries have larger keys, so none of them is `k`
      subst hk
      have hnone : findList p.1 t = none :=
        findList_eq_none fun hmem => lt_irrefl _ (hl.1 p.1 hmem)
      simp [hnone, findList, find?_modify, findD]
    · have hfind : (m.modify p.1 0 (· + p.2)).find? k = m.find? k := by
        rw [find?_modify, if_neg hk]
      simp [findList, hk, hfind, findD]

/-- `m[k] += v` for each entry of a list with distinct keys whose key `m` already holds: a key
of the list that `m` holds finds the list's value added, any other key what `m` held. -/
theorem find?_foldl_modify_add_of_contains [AddMonoid β] {l : List (α × β)}
    (hl : (l.map Prod.fst).Pairwise (· < ·)) (m : OrdMap α β) (k : α) :
    (l.foldl (fun m p => if m.contains p.1 then m.modify p.1 0 (· + p.2) else m) m).find? k =
      (findList k l).elim (m.find? k) fun v => (m.find? k).map (· + v) := by
  induction l generalizing m with
  | nil => rfl
  | cons p t ih =>
    rw [List.map_cons, List.pairwise_cons] at hl
    rw [List.foldl_cons, ih hl.2]
    by_cases hk : p.1 = k
    · subst hk
      have hnone : findList p.1 t = none :=
        findList_eq_none fun hmem => lt_irrefl _ (hl.1 p.1 hmem)
      cases h : m.find? p.1 <;> simp [hnone, findList, find?_modify, contains, h]
    · have hfind : (if m.contains p.1 then m.modify p.1 0 (· + p.2) else m).find? k =
          m.find? k := by
        split
        · rw [find?_modify, if_neg hk]
        · rfl
      simp [findList, hk, hfind]

/-- After `std::map::insert(first, last)`, what `m` held wins over the list, and the first
entry of a key over the later ones. -/
theorem find?_insertMany (m : OrdMap α β) (l : List (α × β)) (k : α) :
    (m.insertMany l).find? k = (m.find? k).or (findList k l) := by
  induction l generalizing m with
  | nil => simp [insertMany, findList]
  | cons p t ih =>
    rw [insertMany, List.foldl_cons, ← insertMany, ih]
    by_cases hk : p.1 = k
    · subst hk
      cases h : m.find? p.1 <;> simp [contains, h, findList]
    · have hfind : (if m.contains p.1 then m else m.insert p.1 p.2).find? k = m.find? k := by
        split
        · rfl
        · exact find?_insert_of_ne m p.2 hk
      simp [hfind, findList, hk]

end OrdMap

end HydraNode
