import HydraNode.Coins.View
import HydraNode.Lib.OrdMap

/-!
# The coins cache

`CCoinsViewCache` (`coins.h`, `coins.cpp`) keeps the coins it has read or changed in
`cacheCoins`, each entry with two flags: `DIRTY`, the entry may differ from the view below,
and `FRESH`, the view below has no unspent coin for the outpoint. A read goes through
`FetchCoin`, which copies the coin of the view below into the cache on a miss. `SpendCoin`
erases a `FRESH` entry and leaves any other one spent and `DIRTY`; `BatchWrite` takes the
entries of a child cache that is flushed into this one; `Uncache` drops an entry with no flag.
`cachedCoinsUsage` counts the memory of the cached coins.

This module models one cache over the coins of the view below it, `below : CoinsMap`, which
answers only with unspent coins. What the cache shows is `CCoinsMap.view`: the coin of an
entry, unless it is spent, and the view below where there is no entry. `CCoinsViewCache.Inv`
is the representation invariant: the usage counter is the sum over the entries, a `FRESH`
entry has no coin below it, and an entry that is not `DIRTY` holds the coin below it. Each
operation keeps it and acts on the view as the matching operation of `CoinsMap`, provided
`possible_overwrite` is passed truthfully to `AddCoin`.

`cacheCoins` is an `unordered_map`, whose iteration order is unspecified; the model iterates it
in the order of the hash, then the index. The usage counter is a `size_t`; the invariant keeps
every subtraction within what was added, so it is a natural number here.

## Main definitions

* `CCoinsCacheEntry`, `CCoinsViewCache`, `CCoinsViewDB`
* `CCoinsViewCache.AddCoin`, `spendEntry`, `Uncache`, `BatchWrite`, `HaveCoinInCache`,
  `CCoinsViewDB.BatchWrite`
* `CCoinsMap.view`, `CCoinsViewCache.Inv`

## Main results

* `emplaceFetched_view`, `AddCoin_spec`, `spendEntry_view`, `Uncache_view`, `BatchWrite_spec`,
  `CCoinsViewDB.coins_BatchWrite` — each operation on the view, keeping the invariant
-/

namespace HydraNode

theorem COutPoint.toLex_injective : Function.Injective fun o : COutPoint => toLex (o.hash, o.n) := by
  rintro ⟨h₁, n₁⟩ ⟨h₂, n₂⟩ h
  simpa using h

/-- The order the model iterates a `CCoinsMap` in: by hash, then by index. -/
instance : LinearOrder COutPoint :=
  LinearOrder.lift' (fun o => toLex (o.hash, o.n)) COutPoint.toLex_injective

/-! ## Memory usage -/

/-- `memusage::MallocUsage` on a 64-bit platform: what `malloc` takes for `alloc` bytes. -/
def MallocUsage (alloc : ℕ) : ℕ := if alloc = 0 then 0 else (alloc + 31) / 16 * 16

/-- `memusage::DynamicUsage` of a script, a `prevector<28, unsigned char>`: up to 28 bytes are
kept in place, and a longer script is taken to fill a heap block of its own length. -/
def CScript.DynamicUsage (s : CScript) : ℕ := MallocUsage (if s.length ≤ 28 then 0 else s.length)

/-- `Coin::DynamicMemoryUsage`. -/
def Coin.DynamicMemoryUsage (c : Coin) : ℕ := c.out.scriptPubKey.DynamicUsage

/-- `Coin::Clear` shrinks the script, so a spent coin takes no memory. -/
@[simp] theorem Coin.DynamicMemoryUsage_empty : Coin.empty.DynamicMemoryUsage = 0 := rfl

/-! ## Entries, caches and the database -/

/-- `CCoinsCacheEntry`: a coin and the flags `DIRTY` and `FRESH`. -/
structure CCoinsCacheEntry where
  coin : Coin
  dirty : Bool
  fresh : Bool
  deriving DecidableEq, Repr

/-- What `GetCoin` reports for a cached entry: its coin, unless it is spent. -/
def CCoinsCacheEntry.unspentCoin (e : CCoinsCacheEntry) : Option Coin :=
  if e.coin.IsSpent then none else some e.coin

/-- `CCoinsMap`. -/
abbrev CCoinsMap := OrdMap COutPoint CCoinsCacheEntry

/-- The memory of the coins of the entries: what `cachedCoinsUsage` counts. -/
def CCoinsMap.coinsUsage (m : CCoinsMap) : ℕ := m.sumBy fun _ e => e.coin.DynamicMemoryUsage

/-- The coins a list of entries shows over the view `below`: the coin of the first entry of an
outpoint, unless it is spent, and the view below where there is none. -/
def entriesView (l : List (COutPoint × CCoinsCacheEntry)) (below : CoinsMap) : CoinsMap :=
  fun o =>
    match OrdMap.findList o l with
    | some e => e.unspentCoin
    | none => below o

/-- The coins a map of entries shows over the view `below`. -/
def CCoinsMap.view (m : CCoinsMap) (below : CoinsMap) : CoinsMap := entriesView m.entries below

/-- A view that answers only with unspent coins, as every `GetCoin` does. -/
def CoinsMap.Unspent (v : CoinsMap) : Prop := ∀ o coin, v o = some coin → coin.IsSpent = false

/-- `CCoinsViewCache`: the cached entries and the memory of their coins. -/
structure CCoinsViewCache where
  cacheCoins : CCoinsMap
  cachedCoinsUsage : ℕ

/-- `CCoinsViewCache(baseIn)`, with no entries. -/
def CCoinsViewCache.empty : CCoinsViewCache := ⟨∅, 0⟩

/-- `CCoinsViewDB`: the coins the database stores. `BatchWrite` erases the spent ones, so all
of them are unspent. -/
structure CCoinsViewDB where
  coins : CoinsMap
  unspent : coins.Unspent

/-- The errors of the cache: a failed `assert`, and a `std::logic_error` with its text. -/
inductive CoinsError
  | assertion
  | logicError (what : String)
  deriving DecidableEq, Repr

/-! ## The operations of one cache -/

namespace CCoinsViewCache

variable (c : CCoinsViewCache)

/-- The miss path of `FetchCoin`: the coin the view below reported, if any, is emplaced
without flags, or `FRESH` when it is spent, and its memory counted. -/
def emplaceFetched (outpoint : COutPoint) : Option Coin → CCoinsViewCache
  | none => c
  | some tmp =>
    ⟨c.cacheCoins.insert outpoint ⟨tmp, false, tmp.IsSpent⟩,
      c.cachedCoinsUsage + tmp.DynamicMemoryUsage⟩

/-- `HaveCoinInCache`: whether the cache itself holds an unspent coin. Nothing is fetched. -/
def HaveCoinInCache (outpoint : COutPoint) : Bool :=
  match c.cacheCoins.find? outpoint with
  | some e => !e.coin.IsSpent
  | none => false

/-- `AddCoin(outpoint, coin, possible_overwrite)`. The entry is emplaced as a default one,
with the empty coin and no flags, when the outpoint is not cached. -/
def AddCoin (outpoint : COutPoint) (coin : Coin) (possible_overwrite : Bool) :
    Except CoinsError CCoinsViewCache :=
  if coin.IsSpent then .error .assertion
  else if coin.out.scriptPubKey.IsUnspendable then .ok c
  else
    let inserted := (c.cacheCoins.find? outpoint).isNone
    let entry := (c.cacheCoins.find? outpoint).getD ⟨Coin.empty, false, false⟩
    let usage := if inserted then c.cachedCoinsUsage
      else c.cachedCoinsUsage - entry.coin.DynamicMemoryUsage
    if !possible_overwrite && !entry.coin.IsSpent then
      .error (.logicError "Adding new coin that replaces non-pruned entry")
    else
      let fresh := !possible_overwrite && !entry.dirty
      .ok ⟨c.cacheCoins.insert outpoint ⟨coin, true, entry.fresh || fresh⟩,
        usage + coin.DynamicMemoryUsage⟩

/-- The part of `SpendCoin` after `FetchCoin` found the entry `e`: its memory is uncounted and
its coin moved out; the entry is erased when `FRESH`, and otherwise left with the cleared coin
and `DIRTY`. -/
def spendEntry (outpoint : COutPoint) (e : CCoinsCacheEntry) : CCoinsViewCache :=
  let usage := c.cachedCoinsUsage - e.coin.DynamicMemoryUsage
  if e.fresh then ⟨c.cacheCoins.erase outpoint, usage⟩
  else ⟨c.cacheCoins.insert outpoint ⟨Coin.empty, true, e.fresh⟩, usage⟩

/-- `Uncache(hash)`: an entry with no flag is dropped. -/
def Uncache (outpoint : COutPoint) : CCoinsViewCache :=
  match c.cacheCoins.find? outpoint with
  | some e =>
    if !e.dirty && !e.fresh then
      ⟨c.cacheCoins.erase outpoint, c.cachedCoinsUsage - e.coin.DynamicMemoryUsage⟩
    else c
  | none => c

/-- One entry of the loop of `BatchWrite`: the child's entry `child.2` at `child.1`. -/
def batchWriteStep (c : CCoinsViewCache) (child : COutPoint × CCoinsCacheEntry) :
    Except CoinsError CCoinsViewCache :=
  if !child.2.dirty then .ok c
  else
    match c.cacheCoins.find? child.1 with
    | none =>
      -- a `FRESH` and spent entry is dropped; any other one moves up, `FRESH` if it was
      if child.2.fresh && child.2.coin.IsSpent then .ok c
      else
        .ok ⟨c.cacheCoins.insert child.1 ⟨child.2.coin, true, child.2.fresh⟩,
          c.cachedCoinsUsage + child.2.coin.DynamicMemoryUsage⟩
    | some us =>
      if child.2.fresh && !us.coin.IsSpent then
        .error (.logicError
          "FRESH flag misapplied to cache entry for base transaction with spendable outputs")
      else if us.fresh && child.2.coin.IsSpent then
        .ok ⟨c.cacheCoins.erase child.1, c.cachedCoinsUsage - us.coin.DynamicMemoryUsage⟩
      else
        .ok ⟨c.cacheCoins.insert child.1 ⟨child.2.coin, true, us.fresh⟩,
          c.cachedCoinsUsage - us.coin.DynamicMemoryUsage + child.2.coin.DynamicMemoryUsage⟩

/-- `BatchWrite(mapCoins, hashBlock)`: the entries of the child, in iteration order. -/
def BatchWrite (mapCoins : CCoinsMap) : Except CoinsError CCoinsViewCache :=
  mapCoins.entries.foldlM batchWriteStep c

end CCoinsViewCache

/-- One entry of the loop of `CCoinsViewDB::BatchWrite`: a `DIRTY` entry is erased when its
coin is spent and written otherwise. -/
def CCoinsViewDB.writeStep (coins : CoinsMap) (entry : COutPoint × CCoinsCacheEntry) : CoinsMap :=
  if entry.2.dirty then
    Function.update coins entry.1 (if entry.2.coin.IsSpent then none else some entry.2.coin)
  else coins

/-- A step of the database's loop writes only unspent coins. -/
theorem CCoinsViewDB.writeStep_unspent {coins : CoinsMap} (h : coins.Unspent)
    (entry : COutPoint × CCoinsCacheEntry) : (writeStep coins entry).Unspent := by
  intro o coin ho
  by_cases hd : entry.2.dirty = true
  · by_cases heq : o = entry.1
    · -- the entry's own outpoint: a spent coin was erased
      subst heq
      by_cases hs : entry.2.coin.IsSpent = true
      · simp [writeStep, hd, hs] at ho
      · simp only [writeStep, hd, hs, if_true, Bool.false_eq_true, if_false, Function.update_self,
          Option.some.injEq] at ho
        rw [← ho]
        simpa using hs
    · simp only [writeStep, hd, if_true, Function.update_of_ne heq] at ho
      exact h o coin ho
  · simp only [writeStep, hd, Bool.false_eq_true, if_false] at ho
    exact h o coin ho

theorem CCoinsViewDB.foldl_writeStep_unspent {coins : CoinsMap} (h : coins.Unspent) :
    ∀ l : List (COutPoint × CCoinsCacheEntry), (l.foldl writeStep coins).Unspent := by
  intro l
  induction l generalizing coins with
  | nil => exact h
  | cons e l ih => exact ih (writeStep_unspent h e)

/-- `CCoinsViewDB::BatchWrite`. -/
def CCoinsViewDB.BatchWrite (db : CCoinsViewDB) (mapCoins : CCoinsMap) : CCoinsViewDB :=
  ⟨mapCoins.entries.foldl writeStep db.coins, foldl_writeStep_unspent db.unspent _⟩

/-! ## The invariant -/

/-- An entry over the coin `b` the view below answers: a `FRESH` entry has no coin below it, an
entry that is not `DIRTY` holds the coin below it, and a spent coin is the cleared one. -/
structure CCoinsCacheEntry.EntryInv (e : CCoinsCacheEntry) (b : Option Coin) : Prop where
  freshNone : e.fresh = true → b = none
  notDirty : e.dirty = false → b = some e.coin
  spentEmpty : e.coin.IsSpent = true → e.coin = Coin.empty

/-- Every entry of `m` over the view `below`. -/
def CCoinsMap.EntriesInv (m : CCoinsMap) (below : CoinsMap) : Prop :=
  ∀ o e, m.find? o = some e → e.EntryInv (below o)

/-- The representation invariant of a cache over the view `below`: `cachedCoinsUsage` is the
memory of the cached coins, and every entry agrees with the view below as its flags say. -/
structure CCoinsViewCache.Inv (c : CCoinsViewCache) (below : CoinsMap) : Prop where
  usage : c.cachedCoinsUsage = c.cacheCoins.coinsUsage
  entries : c.cacheCoins.EntriesInv below

/-! ## Lemmas about entries and views -/

namespace CCoinsCacheEntry

variable {e : CCoinsCacheEntry}

theorem unspentCoin_of_unspent (h : e.coin.IsSpent = false) : e.unspentCoin = some e.coin := by
  simp [unspentCoin, h]

theorem unspentCoin_of_spent (h : e.coin.IsSpent = true) : e.unspentCoin = none := by
  simp [unspentCoin, h]

theorem unspent_of_unspentCoin {coin : Coin} (h : e.unspentCoin = some coin) :
    coin.IsSpent = false := by
  by_cases hs : e.coin.IsSpent = true
  · rw [unspentCoin_of_spent hs] at h
    cases h
  · rw [unspentCoin_of_unspent (by simpa using hs), Option.some.injEq] at h
    rw [← h]
    simpa using hs

/-- What an entry shows depends on its coin only, not on its flags. -/
@[simp] theorem unspentCoin_mk (coin : Coin) (dirty fresh : Bool) :
    (⟨coin, dirty, fresh⟩ : CCoinsCacheEntry).unspentCoin =
      if coin.IsSpent then none else some coin := rfl

end CCoinsCacheEntry

theorem entriesView_nil (below : CoinsMap) : entriesView [] below = below := rfl

/-- The first entry of a list with distinct outpoints sets the view at its outpoint, and the rest
of the list does not see it. -/
theorem entriesView_cons {p : COutPoint × CCoinsCacheEntry} {l : List (COutPoint × CCoinsCacheEntry)}
    (hnd : ((p :: l).map Prod.fst).Nodup) (below : CoinsMap) :
    entriesView (p :: l) below = entriesView l (Function.update below p.1 p.2.unspentCoin) := by
  rw [List.map_cons, List.nodup_cons] at hnd
  funext o
  by_cases ho : o = p.1
  · subst ho
    simp [entriesView, OrdMap.findList, OrdMap.findList_eq_none hnd.1]
  · have hne : p.1 ≠ o := Ne.symm ho
    simp [entriesView, OrdMap.findList, hne, Function.update_of_ne ho]

namespace CCoinsMap

variable {m : CCoinsMap} {below : CoinsMap} {o : COutPoint} {e : CCoinsCacheEntry}

theorem view_of_find?_eq_some (h : m.find? o = some e) : m.view below o = e.unspentCoin := by
  simp only [view, entriesView]
  rw [show OrdMap.findList o m.entries = m.find? o from rfl, h]

theorem view_of_find?_eq_none (h : m.find? o = none) : m.view below o = below o := by
  simp only [view, entriesView]
  rw [show OrdMap.findList o m.entries = m.find? o from rfl, h]

@[simp] theorem view_empty (below : CoinsMap) : view ∅ below = below := rfl

theorem view_insert (e : CCoinsCacheEntry) :
    view (m.insert o e) below = Function.update (m.view below) o e.unspentCoin := by
  funext o'
  by_cases ho : o' = o
  · subst ho
    rw [view_of_find?_eq_some (OrdMap.find?_insert_self m o' e), Function.update_self]
  · -- another outpoint reads the same entry as before
    have hfind : (m.insert o e).find? o' = m.find? o' := OrdMap.find?_insert_of_ne _ _ (Ne.symm ho)
    rw [Function.update_of_ne ho]
    cases h : m.find? o' with
    | none => rw [view_of_find?_eq_none (hfind.trans h), view_of_find?_eq_none h]
    | some e' => rw [view_of_find?_eq_some (hfind.trans h), view_of_find?_eq_some h]

theorem view_erase : view (m.erase o) below = Function.update (m.view below) o (below o) := by
  funext o'
  by_cases ho : o' = o
  · subst ho
    rw [view_of_find?_eq_none (OrdMap.find?_erase_self m o'), Function.update_self]
  · have hfind : (m.erase o).find? o' = m.find? o' := OrdMap.find?_erase_of_ne _ (Ne.symm ho)
    rw [Function.update_of_ne ho]
    cases h : m.find? o' with
    | none => rw [view_of_find?_eq_none (hfind.trans h), view_of_find?_eq_none h]
    | some e' => rw [view_of_find?_eq_some (hfind.trans h), view_of_find?_eq_some h]

/-- A cache over a view of unspent coins shows only unspent coins. -/
theorem view_unspent (hB : below.Unspent) : (m.view below).Unspent := by
  intro o coin h
  cases hf : m.find? o with
  | none =>
    rw [view_of_find?_eq_none hf] at h
    exact hB o coin h
  | some e =>
    rw [view_of_find?_eq_some hf] at h
    exact CCoinsCacheEntry.unspent_of_unspentCoin h

theorem coinsUsage_insert_of_find?_eq_none (h : m.find? o = none) (e : CCoinsCacheEntry) :
    coinsUsage (m.insert o e) = m.coinsUsage + e.coin.DynamicMemoryUsage :=
  OrdMap.sumBy_insert_of_find?_eq_none m _ e h

theorem coinsUsage_insert_of_find?_eq_some {e' : CCoinsCacheEntry} (h : m.find? o = some e')
    (e : CCoinsCacheEntry) :
    coinsUsage (m.insert o e) + e'.coin.DynamicMemoryUsage =
      m.coinsUsage + e.coin.DynamicMemoryUsage :=
  OrdMap.sumBy_insert_of_find?_eq_some m _ e h

theorem coinsUsage_erase_of_find?_eq_some (h : m.find? o = some e) :
    coinsUsage (m.erase o) + e.coin.DynamicMemoryUsage = m.coinsUsage :=
  OrdMap.sumBy_erase_of_find?_eq_some m _ h

/-- A cached coin's memory is part of the total, so subtracting it stays exact. -/
theorem le_coinsUsage (h : m.find? o = some e) : e.coin.DynamicMemoryUsage ≤ m.coinsUsage := by
  rw [← coinsUsage_erase_of_find?_eq_some h]
  exact Nat.le_add_left _ _

theorem EntriesInv.insert (hm : m.EntriesInv below) (he : e.EntryInv (below o)) :
    EntriesInv (m.insert o e) below := by
  intro o' e' h
  by_cases ho : o = o'
  · subst ho
    rw [OrdMap.find?_insert_self, Option.some.injEq] at h
    exact h ▸ he
  · rw [OrdMap.find?_insert_of_ne _ _ ho] at h
    exact hm o' e' h

theorem EntriesInv.erase (hm : m.EntriesInv below) : EntriesInv (m.erase o) below := by
  intro o' e' h
  by_cases ho : o = o'
  · subst ho
    simp at h
  · rw [OrdMap.find?_erase_of_ne _ ho] at h
    exact hm o' e' h

theorem EntriesInv_empty (below : CoinsMap) : EntriesInv ∅ below := by
  intro o e h
  simp at h

end CCoinsMap

theorem CCoinsViewCache.Inv_empty (below : CoinsMap) : CCoinsViewCache.empty.Inv below :=
  ⟨rfl, CCoinsMap.EntriesInv_empty below⟩

theorem CCoinsMap.EntriesInv.of_mem {m : CCoinsMap} {below : CoinsMap} (hm : m.EntriesInv below)
    {p : COutPoint × CCoinsCacheEntry} (hp : p ∈ m.entries) : p.2.EntryInv (below p.1) :=
  hm p.1 p.2 (m.find?_of_mem_entries hp)

/-! ## Each operation on the view -/

namespace CCoinsViewCache

variable {c : CCoinsViewCache} {B : CoinsMap} {o : COutPoint}

/-- The miss path of `FetchCoin`, with the coin of the view below, keeps what the cache shows
and the invariant; the fetched entry answers as the view below does. -/
theorem emplaceFetched_spec (hB : B.Unspent) (hinv : c.Inv B)
    (hmiss : c.cacheCoins.find? o = none) :
    (c.emplaceFetched o (B o)).cacheCoins.view B = c.cacheCoins.view B ∧
      (c.emplaceFetched o (B o)).Inv B ∧
      ((c.emplaceFetched o (B o)).cacheCoins.find? o).bind CCoinsCacheEntry.unspentCoin = B o := by
  cases hb : B o with
  | none => exact ⟨rfl, hinv, by simp [emplaceFetched, hmiss]⟩
  | some tmp =>
    have hs : tmp.IsSpent = false := hB o tmp hb
    have hview : c.cacheCoins.view B o = some tmp := by
      rw [CCoinsMap.view_of_find?_eq_none hmiss, hb]
    refine ⟨?_, ⟨?_, ?_⟩, ?_⟩
    · -- the fetched coin is what the cache already showed
      rw [emplaceFetched, CCoinsMap.view_insert, CCoinsCacheEntry.unspentCoin_mk, hs]
      simp only [Bool.false_eq_true, if_false, ← hview, Function.update_eq_self]
    · rw [emplaceFetched, CCoinsMap.coinsUsage_insert_of_find?_eq_none hmiss, hinv.usage]
    · refine hinv.entries.insert ⟨fun hf => ?_, fun _ => hb, fun h => by simp [hs] at h⟩
      simp [hs] at hf
    · simp [emplaceFetched, hs]

/-- `AddCoin` of an unspent coin, with `possible_overwrite` set whenever the cache shows a coin
at the outpoint, does not throw, keeps the invariant, and adds the coin to what the cache shows
as `CoinsMap.AddCoin` does. -/
theorem AddCoin_spec (hB : B.Unspent) (hinv : c.Inv B) {coin : Coin} {possible_overwrite : Bool}
    (hcoin : coin.IsSpent = false)
    (htruth : (c.cacheCoins.view B o).isSome → possible_overwrite = true) :
    ∃ c', c.AddCoin o coin possible_overwrite = .ok c' ∧ c'.Inv B ∧
      some (c'.cacheCoins.view B) = (c.cacheCoins.view B).AddCoin o coin := by
  by_cases hu : coin.out.scriptPubKey.IsUnspendable = true
  · exact ⟨c, by simp [AddCoin, hcoin, hu], hinv, by simp [CoinsMap.AddCoin, hcoin, hu]⟩
  have hu' : coin.out.scriptPubKey.IsUnspendable = false := by simpa using hu
  have hadd : (c.cacheCoins.view B).AddCoin o coin =
      some (Function.update (c.cacheCoins.view B) o (some coin)) := by
    simp [CoinsMap.AddCoin, hcoin, hu']
  have hnew : ∀ (d f : Bool), (⟨coin, d, f⟩ : CCoinsCacheEntry).unspentCoin = some coin := by
    simp [hcoin]
  -- without `possible_overwrite` the cache shows no coin at the outpoint
  have hnone : possible_overwrite = false → c.cacheCoins.view B o = none := fun hpo => by
    by_contra hne
    exact absurd (htruth (Option.ne_none_iff_isSome.mp hne)) (by simp [hpo])
  cases hfind : c.cacheCoins.find? o with
  | none =>
    -- `emplace` inserts a default entry, whose coin is spent and which has no flag
    refine ⟨⟨c.cacheCoins.insert o ⟨coin, true, !possible_overwrite⟩,
      c.cachedCoinsUsage + coin.DynamicMemoryUsage⟩, by simp [AddCoin, hcoin, hu', hfind], ⟨?_, ?_⟩, ?_⟩
    · rw [CCoinsMap.coinsUsage_insert_of_find?_eq_none hfind, hinv.usage]
    · refine hinv.entries.insert ⟨fun hf => ?_, fun hd => by simp at hd, fun h => by simp [hcoin] at h⟩
      have hpo : possible_overwrite = false := by simpa using hf
      have h := hnone hpo
      rwa [CCoinsMap.view_of_find?_eq_none hfind] at h
    · rw [hadd, CCoinsMap.view_insert, hnew]
  | some e =>
    -- without `possible_overwrite` the entry found is spent, so nothing is thrown
    have hspent : possible_overwrite = false → e.coin.IsSpent = true := fun hpo => by
      have h := hnone hpo
      rw [CCoinsMap.view_of_find?_eq_some hfind] at h
      by_contra hs
      rw [CCoinsCacheEntry.unspentCoin_of_unspent (by simpa using hs)] at h
      cases h
    have hthrow : (!possible_overwrite && !e.coin.IsSpent) = false := by
      cases hpo : possible_overwrite
      · simp [hspent hpo]
      · rfl
    have hle := CCoinsMap.le_coinsUsage hfind
    have hsum := CCoinsMap.coinsUsage_insert_of_find?_eq_some hfind
      ⟨coin, true, e.fresh || (!possible_overwrite && !e.dirty)⟩
    refine ⟨⟨c.cacheCoins.insert o ⟨coin, true, e.fresh || (!possible_overwrite && !e.dirty)⟩,
      c.cachedCoinsUsage - e.coin.DynamicMemoryUsage + coin.DynamicMemoryUsage⟩,
      by simp [AddCoin, hcoin, hu', hfind, hthrow], ⟨?_, ?_⟩, ?_⟩
    · show c.cachedCoinsUsage - e.coin.DynamicMemoryUsage + coin.DynamicMemoryUsage =
        CCoinsMap.coinsUsage (c.cacheCoins.insert o _)
      dsimp only at hsum
      rw [hinv.usage]
      omega
    · refine hinv.entries.insert ⟨fun hf => ?_, fun hd => by simp at hd, fun h => by simp [hcoin] at h⟩
      have hok := hinv.entries o e hfind
      cases hfr : e.fresh
      · -- the flag is new: the entry was spent and clean, which the coin below rules out
        have hpo : possible_overwrite = false ∧ e.dirty = false := by simpa [hfr] using hf
        have hbelow := hok.notDirty hpo.2
        have := hB o e.coin hbelow
        simp [hspent hpo.1] at this
      · exact hok.freshNone hfr
    · rw [hadd, CCoinsMap.view_insert, hnew]

/-- `SpendCoin` on an entry `FetchCoin` found keeps the invariant and takes the coin out of
what the cache shows. -/
theorem spendEntry_spec (hinv : c.Inv B) {e : CCoinsCacheEntry} (he : c.cacheCoins.find? o = some e) :
    (c.spendEntry o e).Inv B ∧
      (c.spendEntry o e).cacheCoins.view B = Function.update (c.cacheCoins.view B) o none := by
  have hle := CCoinsMap.le_coinsUsage he
  rw [← hinv.usage] at hle
  cases hfr : e.fresh
  · -- the entry stays, spent and `DIRTY`
    have hsum := CCoinsMap.coinsUsage_insert_of_find?_eq_some he ⟨Coin.empty, true, false⟩
    simp only [Coin.DynamicMemoryUsage_empty, add_zero, ← hinv.usage] at hsum
    simp only [spendEntry, hfr, Bool.false_eq_true, if_false]
    refine ⟨⟨by dsimp only; omega,
      hinv.entries.insert ⟨fun hf => by simp at hf, fun hd => by simp at hd, fun _ => rfl⟩⟩, ?_⟩
    simp [CCoinsMap.view_insert]
  · -- a `FRESH` entry is erased, and there is no coin below it
    have hsum := CCoinsMap.coinsUsage_erase_of_find?_eq_some he
    rw [← hinv.usage] at hsum
    simp only [spendEntry, hfr, if_true]
    refine ⟨⟨by dsimp only; omega, hinv.entries.erase⟩, ?_⟩
    simp [CCoinsMap.view_erase, (hinv.entries o e he).freshNone hfr]

/-- `Uncache` keeps the invariant and what the cache shows: an entry with no flag holds the coin
below it. -/
theorem Uncache_spec (hB : B.Unspent) (hinv : c.Inv B) :
    (c.Uncache o).Inv B ∧ (c.Uncache o).cacheCoins.view B = c.cacheCoins.view B := by
  cases hfind : c.cacheCoins.find? o with
  | none => simp [Uncache, hfind, hinv]
  | some e =>
    by_cases hflags : e.dirty = false ∧ e.fresh = false
    · have hbelow := (hinv.entries o e hfind).notDirty hflags.1
      have hsum := CCoinsMap.coinsUsage_erase_of_find?_eq_some hfind
      have hle := CCoinsMap.le_coinsUsage hfind
      rw [← hinv.usage] at hle hsum
      -- the coin below is the entry's own, and it is unspent
      have hview : c.cacheCoins.view B o = B o := by
        rw [CCoinsMap.view_of_find?_eq_some hfind, hbelow,
          CCoinsCacheEntry.unspentCoin_of_unspent (hB o e.coin hbelow)]
      simp only [Uncache, hfind, hflags, Bool.not_false, Bool.and_self, if_true]
      refine ⟨⟨by dsimp only; omega, hinv.entries.erase⟩, ?_⟩
      rw [CCoinsMap.view_erase, ← hview, Function.update_eq_self]
    · have hkeep : (!e.dirty && !e.fresh) = false := by
        cases hd : e.dirty <;> cases hf : e.fresh <;> simp_all
      simp [Uncache, hfind, hkeep, hinv]

/-- One entry of `BatchWrite` whose flags hold over what the parent shows: nothing is thrown,
the parent keeps its invariant, and what it shows at the entry's outpoint becomes the entry's
coin. -/
theorem batchWriteStep_spec (hB : B.Unspent) (hinv : c.Inv B) {p : COutPoint × CCoinsCacheEntry}
    (hp : p.2.EntryInv (c.cacheCoins.view B p.1)) :
    ∃ c', batchWriteStep c p = .ok c' ∧ c'.Inv B ∧
      c'.cacheCoins.view B = Function.update (c.cacheCoins.view B) p.1 p.2.unspentCoin := by
  obtain ⟨o, e⟩ := p
  dsimp only at hp ⊢
  cases hd : e.dirty
  · -- a clean entry already holds what the parent shows
    have hview := hp.notDirty hd
    have hs := CCoinsMap.view_unspent hB o e.coin hview
    refine ⟨c, by simp [batchWriteStep, hd], hinv, ?_⟩
    rw [CCoinsCacheEntry.unspentCoin_of_unspent hs, ← hview, Function.update_eq_self]
  · cases hfind : c.cacheCoins.find? o with
    | none =>
      have hview : c.cacheCoins.view B o = B o := CCoinsMap.view_of_find?_eq_none hfind
      by_cases hdrop : e.fresh = true ∧ e.coin.IsSpent = true
      · -- a `FRESH` and spent entry, with no coin below it, is dropped
        refine ⟨c, by simp [batchWriteStep, hd, hfind, hdrop], hinv, ?_⟩
        rw [CCoinsCacheEntry.unspentCoin_of_spent hdrop.2, ← hp.freshNone hdrop.1,
          Function.update_eq_self]
      · have hdrop' : (e.fresh && e.coin.IsSpent) = false := by
          cases hf : e.fresh <;> simp_all
        refine ⟨⟨c.cacheCoins.insert o ⟨e.coin, true, e.fresh⟩,
          c.cachedCoinsUsage + e.coin.DynamicMemoryUsage⟩,
          by simp [batchWriteStep, hd, hfind, hdrop'], ⟨?_, ?_⟩, ?_⟩
        · dsimp only
          rw [CCoinsMap.coinsUsage_insert_of_find?_eq_none hfind, hinv.usage]
        · refine hinv.entries.insert ⟨fun hf => ?_, fun h => by simp at h, hp.spentEmpty⟩
          rw [← hview]
          exact hp.freshNone hf
        · rw [CCoinsMap.view_insert]
          rfl
    | some us =>
      have hview : c.cacheCoins.view B o = us.unspentCoin := CCoinsMap.view_of_find?_eq_some hfind
      -- a `FRESH` child entry has no coin below it, so the parent's entry is spent
      have hthrow : (e.fresh && !us.coin.IsSpent) = false := by
        cases hf : e.fresh
        · rfl
        · have h := hp.freshNone hf
          rw [hview] at h
          cases hs : us.coin.IsSpent
          · rw [CCoinsCacheEntry.unspentCoin_of_unspent hs] at h
            cases h
          · rfl
      have hle := CCoinsMap.le_coinsUsage hfind
      rw [← hinv.usage] at hle
      by_cases herase : us.fresh = true ∧ e.coin.IsSpent = true
      · -- the parent's entry is `FRESH` too: it is erased
        have hsum := CCoinsMap.coinsUsage_erase_of_find?_eq_some hfind
        rw [← hinv.usage] at hsum
        refine ⟨⟨c.cacheCoins.erase o, c.cachedCoinsUsage - us.coin.DynamicMemoryUsage⟩,
          by simp [batchWriteStep, hd, hfind, hthrow, herase],
          ⟨by dsimp only; omega, hinv.entries.erase⟩, ?_⟩
        rw [CCoinsMap.view_erase, (hinv.entries o us hfind).freshNone herase.1,
          CCoinsCacheEntry.unspentCoin_of_spent herase.2]
      · have herase' : (us.fresh && e.coin.IsSpent) = false := by
          cases hf : us.fresh <;> simp_all
        have hsum := CCoinsMap.coinsUsage_insert_of_find?_eq_some hfind ⟨e.coin, true, us.fresh⟩
        dsimp only at hsum
        rw [← hinv.usage] at hsum
        refine ⟨⟨c.cacheCoins.insert o ⟨e.coin, true, us.fresh⟩,
          c.cachedCoinsUsage - us.coin.DynamicMemoryUsage + e.coin.DynamicMemoryUsage⟩,
          by simp [batchWriteStep, hd, hfind, hthrow, herase'],
          ⟨by dsimp only; omega, hinv.entries.insert
            ⟨fun hf => (hinv.entries o us hfind).freshNone hf, fun h => by simp at h,
              hp.spentEmpty⟩⟩, ?_⟩
        rw [CCoinsMap.view_insert]
        rfl

/-- The loop of `BatchWrite` over entries with distinct outpoints, whose flags hold over what
the parent shows, does not throw and lays the entries over what the parent showed. The
induction is on the entries; each step changes the parent at its own outpoint only, so the
later entries' flags still hold. -/
theorem foldlM_batchWriteStep (hB : B.Unspent) :
    ∀ (l : List (COutPoint × CCoinsCacheEntry)) (c : CCoinsViewCache),
    (l.map Prod.fst).Nodup → c.Inv B → (∀ p ∈ l, p.2.EntryInv (c.cacheCoins.view B p.1)) →
    ∃ c', l.foldlM batchWriteStep c = .ok c' ∧ c'.Inv B ∧
      c'.cacheCoins.view B = entriesView l (c.cacheCoins.view B)
  | [], c, _, hinv, _ => ⟨c, rfl, hinv, rfl⟩
  | p :: l, c, hnd, hinv, hflags => by
    obtain ⟨c₁, h₁, hinv₁, hview₁⟩ := batchWriteStep_spec hB hinv (hflags p List.mem_cons_self)
    have hnd' := hnd
    rw [List.map_cons, List.nodup_cons] at hnd'
    have hflags₁ : ∀ q ∈ l, q.2.EntryInv (c₁.cacheCoins.view B q.1) := fun q hq => by
      have hne : q.1 ≠ p.1 := fun he => hnd'.1 (he ▸ List.mem_map_of_mem hq)
      rw [hview₁, Function.update_of_ne hne]
      exact hflags q (List.mem_cons_of_mem p hq)
    obtain ⟨c', h', hinv', hview'⟩ := foldlM_batchWriteStep hB l c₁ hnd'.2 hinv₁ hflags₁
    refine ⟨c', ?_, hinv', ?_⟩
    · rw [List.foldlM_cons, h₁]
      exact h'
    · rw [hview', hview₁, entriesView_cons hnd]

/-- `BatchWrite` of the entries of a child whose flags hold over what this cache shows: nothing
is thrown, the invariant is kept, and this cache then shows what the child showed. -/
theorem BatchWrite_spec (hB : B.Unspent) (hinv : c.Inv B) {m : CCoinsMap}
    (hm : m.EntriesInv (c.cacheCoins.view B)) :
    ∃ c', c.BatchWrite m = .ok c' ∧ c'.Inv B ∧
      c'.cacheCoins.view B = m.view (c.cacheCoins.view B) :=
  foldlM_batchWriteStep hB m.entries c m.keys_nodup hinv fun _ hp => hm.of_mem hp

end CCoinsViewCache

/-- A step of the database's loop, on an entry whose flags hold over the stored coins, sets
the coin of its outpoint to what the entry shows. -/
theorem CCoinsViewDB.writeStep_eq {coins : CoinsMap} (hc : coins.Unspent)
    {p : COutPoint × CCoinsCacheEntry} (hp : p.2.EntryInv (coins p.1)) :
    writeStep coins p = Function.update coins p.1 p.2.unspentCoin := by
  cases hd : p.2.dirty
  · -- a clean entry holds the stored coin
    have hstored := hp.notDirty hd
    rw [writeStep, hd, CCoinsCacheEntry.unspentCoin_of_unspent (hc _ _ hstored), ← hstored]
    simp
  · simp [writeStep, hd, CCoinsCacheEntry.unspentCoin]

theorem CCoinsViewDB.foldl_writeStep :
    ∀ (l : List (COutPoint × CCoinsCacheEntry)) (coins : CoinsMap), coins.Unspent →
    (l.map Prod.fst).Nodup → (∀ p ∈ l, p.2.EntryInv (coins p.1)) →
    l.foldl writeStep coins = entriesView l coins
  | [], _, _, _, _ => rfl
  | p :: l, coins, hc, hnd, hflags => by
    have hnd' := hnd
    rw [List.map_cons, List.nodup_cons] at hnd'
    have hflags₁ : ∀ q ∈ l, q.2.EntryInv (Function.update coins p.1 p.2.unspentCoin q.1) :=
      fun q hq => by
        have hne : q.1 ≠ p.1 := fun he => hnd'.1 (he ▸ List.mem_map_of_mem hq)
        rw [Function.update_of_ne hne]
        exact hflags q (List.mem_cons_of_mem p hq)
    rw [List.foldl_cons, writeStep_eq hc (hflags p List.mem_cons_self),
      foldl_writeStep l _ (writeStep_eq hc (hflags p List.mem_cons_self) ▸ writeStep_unspent hc p)
        hnd'.2 hflags₁, entriesView_cons hnd]

/-- `CCoinsViewDB::BatchWrite` of entries whose flags hold over the stored coins stores what
the entries show over them. -/
theorem CCoinsViewDB.coins_BatchWrite (db : CCoinsViewDB) {m : CCoinsMap}
    (hm : m.EntriesInv db.coins) : (db.BatchWrite m).coins = m.view db.coins :=
  foldl_writeStep m.entries db.coins db.unspent m.keys_nodup fun _ hp => hm.of_mem hp

end HydraNode
