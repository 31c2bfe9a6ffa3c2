import HydraNode.Coins.Cache

/-!
# A stack of coin caches over the database

Caches are stacked: each `CCoinsViewCache` is backed by the one below it, and the lowest by the
database. A read of the top cache that misses asks the cache below, through `base->GetCoin`,
and so on down to the database, and every cache on the way keeps the coin it fetched
(`baseGetCoin`, `CCoinsViewCache.FetchCoin`). `Flush` writes a cache's entries into the view
below it with `BatchWrite`.

The stack stands for one map from outpoints to coins, `viewOf`, what a read of the top cache
answers. `LayersInv` asks each cache to keep `CCoinsViewCache.Inv` over the view of the caches
below it. Every operation of `coins_cache_simulation_test` (`coins_tests.cpp`) keeps it:
`AddCoin` and `SpendCoin` on the top cache, `Uncache` and `Flush` of any cache, pushing a cache
and popping the top one, and the reads. The stack then follows the plain map under the same
operations, as long as `possible_overwrite` is set whenever the map holds a coin
(`TruthfulOps`); flushing every cache leaves that map in the database.
`HaveCoinInCache` looks at the top cache alone, so it can miss a coin the map holds.

## Main definitions

* `baseGetCoin`, `CCoinsViewCache.FetchCoin`, `CCoinsViewCache.SpendCoin`,
  `CCoinsViewCache.Flush`
* `CoinsStack`, `CoinsOp`, `CoinsStack.runOps`, `CoinsMap.runOps`
* `viewOf`, `LayersInv`, `TruthfulOps`

## Main results

* `baseGetCoin_spec` — a read answers with the view and keeps the view and the invariant
* `CoinsStack.applyOp_spec`, `CoinsStack.runOps_spec` — one operation, and a run
-/

namespace HydraNode

/-- The coins the caches `cs`, top first, show over the database. -/
def viewOf (db : CCoinsViewDB) : List CCoinsViewCache → CoinsMap
  | [] => db.coins
  | c :: cs => c.cacheCoins.view (viewOf db cs)

/-- Each cache of `cs` keeps its invariant over the view of the caches below it. -/
def LayersInv (db : CCoinsViewDB) : List CCoinsViewCache → Prop
  | [] => True
  | c :: cs => c.Inv (viewOf db cs) ∧ LayersInv db cs

/-- `base->GetCoin(outpoint, coin)` of the view made of the caches `cs`, top first, over the
database, with the caches after the call: `CCoinsViewDB::GetCoin` under no cache, and otherwise
the top cache's `GetCoin`, whose `FetchCoin` asks the view below it on a miss. -/
def baseGetCoin (db : CCoinsViewDB) :
    List CCoinsViewCache → COutPoint → Option Coin × List CCoinsViewCache
  | [], o => (db.coins o, [])
  | c :: cs, o =>
    match c.cacheCoins.find? o with
    | some e => (e.unspentCoin, c :: cs)
    | none =>
      let r := baseGetCoin db cs o
      let c' := c.emplaceFetched o r.1
      ((c'.cacheCoins.find? o).bind CCoinsCacheEntry.unspentCoin, c' :: r.2)

namespace CCoinsViewCache

variable (db : CCoinsViewDB) (c : CCoinsViewCache) (below : List CCoinsViewCache)

/-- `FetchCoin(outpoint)` of the cache `c` over the caches `below` and the database: the entry
found, or fetched from the view below on a miss, with the caches after. -/
def FetchCoin (outpoint : COutPoint) :
    Option CCoinsCacheEntry × CCoinsViewCache × List CCoinsViewCache :=
  match c.cacheCoins.find? outpoint with
  | some e => (some e, c, below)
  | none =>
    let r := baseGetCoin db below outpoint
    let c' := c.emplaceFetched outpoint r.1
    (c'.cacheCoins.find? outpoint, c', r.2)

/-- `GetCoin`: the coin `FetchCoin` finds, unless it is spent. -/
def GetCoin (outpoint : COutPoint) : Option Coin × CCoinsViewCache × List CCoinsViewCache :=
  let r := c.FetchCoin db below outpoint
  (r.1.bind CCoinsCacheEntry.unspentCoin, r.2)

/-- `HaveCoin`: whether `FetchCoin` finds an unspent coin. -/
def HaveCoin (outpoint : COutPoint) : Bool × CCoinsViewCache × List CCoinsViewCache :=
  let r := c.FetchCoin db below outpoint
  (match r.1 with
    | some e => !e.coin.IsSpent
    | none => false, r.2)

/-- `AccessCoin`: the coin `FetchCoin` finds, or `coinEmpty`. -/
def AccessCoin (outpoint : COutPoint) : Coin × CCoinsViewCache × List CCoinsViewCache :=
  let r := c.FetchCoin db below outpoint
  ((r.1.map CCoinsCacheEntry.coin).getD Coin.empty, r.2)

/-- `SpendCoin(outpoint, &moveout)`: whether `FetchCoin` found an entry, the coin moved out, and
the caches after. When nothing is found `moveout` is not written, shown here as `coinEmpty`. -/
def SpendCoin (outpoint : COutPoint) : Bool × Coin × CCoinsViewCache × List CCoinsViewCache :=
  let r := c.FetchCoin db below outpoint
  match r.1 with
  | none => (false, Coin.empty, r.2)
  | some e => (true, e.coin, r.2.1.spendEntry outpoint e, r.2.2)

/-- `Flush()`: `BatchWrite` of the entries into the view below, the next cache or the database,
after which the cache has no entries and counts no memory. -/
def Flush : Except CoinsError (CCoinsViewCache × List CCoinsViewCache × CCoinsViewDB) :=
  match below with
  | [] => .ok (empty, [], db.BatchWrite c.cacheCoins)
  | p :: cs => (p.BatchWrite c.cacheCoins).map fun p' => (empty, p' :: cs, db)

end CCoinsViewCache

/-- `Flush()` of the cache at depth `i` of the caches `cs`, top first. -/
def flushLayer (db : CCoinsViewDB) :
    ℕ → List CCoinsViewCache → Except CoinsError (List CCoinsViewCache × CCoinsViewDB)
  | _, [] => .ok ([], db)
  | 0, c :: cs => (c.Flush db cs).map fun r => (r.1 :: r.2.1, r.2.2)
  | i + 1, c :: cs => (flushLayer db i cs).map fun r => (c :: r.1, r.2)

/-- Flushing the cache `top` into the caches `cs` below it, then each of them into the next,
down to the database, which is what is left. -/
def flushAll (db : CCoinsViewDB) (top : CCoinsViewCache) :
    List CCoinsViewCache → Except CoinsError CCoinsViewDB
  | [] => .ok (db.BatchWrite top.cacheCoins)
  | p :: cs => (p.BatchWrite top.cacheCoins).bind fun p' => flushAll db p' cs

/-- A stack of caches over the database: the top cache, the caches below it, top first, and the
database. -/
structure CoinsStack where
  top : CCoinsViewCache
  below : List CCoinsViewCache
  db : CCoinsViewDB

/-- The operations of `coins_cache_simulation_test` on a stack of caches. `Uncache` and `Flush`
name a cache by its depth, the top cache at `0`. -/
inductive CoinsOp
  | AddCoin (outpoint : COutPoint) (coin : Coin) (possible_overwrite : Bool)
  | SpendCoin (outpoint : COutPoint)
  | Uncache (layer : ℕ) (outpoint : COutPoint)
  | Flush (layer : ℕ)
  | push
  | pop
  | GetCoin (outpoint : COutPoint)
  | HaveCoin (outpoint : COutPoint)
  | AccessCoin (outpoint : COutPoint)
  | HaveCoinInCache (outpoint : COutPoint)

namespace CoinsStack

variable (s : CoinsStack)

/-- One empty cache over the database. -/
def init (db : CCoinsViewDB) : CoinsStack := ⟨CCoinsViewCache.empty, [], db⟩

/-- The coins a read of the top cache answers. -/
def view : CoinsMap := viewOf s.db (s.top :: s.below)

/-- Every cache keeps its invariant over the caches below it. -/
def Inv : Prop := LayersInv s.db (s.top :: s.below)

/-- `GetCoin` of the top cache. -/
def GetCoin (o : COutPoint) : Option Coin × CoinsStack :=
  let r := s.top.GetCoin s.db s.below o
  (r.1, ⟨r.2.1, r.2.2, s.db⟩)

/-- `HaveCoin` of the top cache. -/
def HaveCoin (o : COutPoint) : Bool × CoinsStack :=
  let r := s.top.HaveCoin s.db s.below o
  (r.1, ⟨r.2.1, r.2.2, s.db⟩)

/-- `AccessCoin` of the top cache. -/
def AccessCoin (o : COutPoint) : Coin × CoinsStack :=
  let r := s.top.AccessCoin s.db s.below o
  (r.1, ⟨r.2.1, r.2.2, s.db⟩)

/-- `HaveCoinInCache` of the top cache. -/
def HaveCoinInCache (o : COutPoint) : Bool := s.top.HaveCoinInCache o

/-- `AddCoin` on the top cache. -/
def AddCoin (o : COutPoint) (coin : Coin) (possible_overwrite : Bool) :
    Except CoinsError CoinsStack :=
  (s.top.AddCoin o coin possible_overwrite).map fun t => ⟨t, s.below, s.db⟩

/-- `SpendCoin` on the top cache. -/
def SpendCoin (o : COutPoint) : Bool × Coin × CoinsStack :=
  let r := s.top.SpendCoin s.db s.below o
  (r.1, r.2.1, ⟨r.2.2.1, r.2.2.2, s.db⟩)

/-- `Uncache` on the cache at depth `i`. -/
def Uncache : ℕ → COutPoint → CoinsStack
  | 0, o => ⟨s.top.Uncache o, s.below, s.db⟩
  | i + 1, o => ⟨s.top, s.below.modify i (·.Uncache o), s.db⟩

/-- `Flush` of the cache at depth `i`. -/
def Flush : ℕ → Except CoinsError CoinsStack
  | 0 => (s.top.Flush s.db s.below).map fun r => ⟨r.1, r.2.1, r.2.2⟩
  | i + 1 => (flushLayer s.db i s.below).map fun r => ⟨s.top, r.1, r.2⟩

/-- A new empty cache on top. -/
def push : CoinsStack := ⟨CCoinsViewCache.empty, s.top :: s.below, s.db⟩

/-- The top cache is flushed and removed; as in `coins_cache_simulation_test`, a new cache is
pushed over the database when none is left. -/
def pop : Except CoinsError CoinsStack :=
  (s.top.Flush s.db s.below).map fun r =>
    match r.2.1 with
    | [] => ⟨CCoinsViewCache.empty, [], r.2.2⟩
    | c :: cs => ⟨c, cs, r.2.2⟩

/-- One operation; a read keeps only the fetches it made. -/
def applyOp : CoinsOp → Except CoinsError CoinsStack
  | .AddCoin o coin possible_overwrite => s.AddCoin o coin possible_overwrite
  | .SpendCoin o => .ok (s.SpendCoin o).2.2
  | .Uncache i o => .ok (s.Uncache i o)
  | .Flush i => s.Flush i
  | .push => .ok s.push
  | .pop => s.pop
  | .GetCoin o => .ok (s.GetCoin o).2
  | .HaveCoin o => .ok (s.HaveCoin o).2
  | .AccessCoin o => .ok (s.AccessCoin o).2
  | .HaveCoinInCache _ => .ok s

/-- A run of operations, stopped by the first exception. -/
def runOps (ops : List CoinsOp) : Except CoinsError CoinsStack := ops.foldlM applyOp s

/-- Flushing every cache, from the top down, into the database. -/
def flushAll : Except CoinsError CCoinsViewDB := HydraNode.flushAll s.db s.top s.below

end CoinsStack

/-! ## The plain map -/

namespace CoinsMap

variable (m : CoinsMap)

/-- The operations on the plain map: only `AddCoin` and `SpendCoin` change it, and `AddCoin` of
a spent coin fails. -/
def applyOp : CoinsOp → Option CoinsMap
  | .AddCoin o coin _ => m.AddCoin o coin
  | .SpendCoin o => some (m.SpendCoin o).2.2
  | _ => some m

/-- A run of operations on the plain map. -/
def runOps (ops : List CoinsOp) : Option CoinsMap := ops.foldlM applyOp m

end CoinsMap

/-- `possible_overwrite` is set whenever the map holds a coin at the outpoint. -/
def CoinsOp.Truthful (m : CoinsMap) : CoinsOp → Prop
  | .AddCoin o _ possible_overwrite => m.HaveCoin o = true → possible_overwrite = true
  | _ => True

/-- Every `AddCoin` of a run on the plain map is truthful about the map it is applied to. -/
def TruthfulOps : CoinsMap → List CoinsOp → Prop
  | _, [] => True
  | m, op :: ops => op.Truthful m ∧ ∀ m', m.applyOp op = some m' → TruthfulOps m' ops

/-! ## Reads through the stack -/

theorem viewOf_unspent (db : CCoinsViewDB) : ∀ cs, (viewOf db cs).Unspent
  | [] => db.unspent
  | _ :: cs => CCoinsMap.view_unspent (viewOf_unspent db cs)

/-- A read through the caches answers with what they show, and leaves both what the caches
show and their invariant as they were. The induction is on the caches: a miss reads the caches
below first, and the fetched coin is the one the cache already showed. -/
theorem baseGetCoin_spec (db : CCoinsViewDB) (o : COutPoint) : ∀ cs, LayersInv db cs →
    (baseGetCoin db cs o).1 = viewOf db cs o ∧ viewOf db (baseGetCoin db cs o).2 = viewOf db cs ∧
      LayersInv db (baseGetCoin db cs o).2
  | [], _ => ⟨rfl, rfl, trivial⟩
  | c :: cs, ⟨hc, hcs⟩ => by
    cases hfind : c.cacheCoins.find? o with
    | some e =>
      have hb : baseGetCoin db (c :: cs) o = (e.unspentCoin, c :: cs) := by simp [baseGetCoin, hfind]
      rw [hb]
      exact ⟨(CCoinsMap.view_of_find?_eq_some hfind).symm, rfl, hc, hcs⟩
    | none =>
      obtain ⟨h₁, h₂, h₃⟩ := baseGetCoin_spec db o cs hcs
      have hc' : c.Inv (viewOf db (baseGetCoin db cs o).2) := h₂ ▸ hc
      have hans : (baseGetCoin db cs o).1 = viewOf db (baseGetCoin db cs o).2 o := by rw [h₁, h₂]
      obtain ⟨hv, hinv, hfetched⟩ := c.emplaceFetched_spec (viewOf_unspent db _) hc' hfind
      simp only [baseGetCoin, hfind, hans]
      refine ⟨?_, ?_, hinv, h₃⟩
      · rw [hfetched, h₂]
        exact (CCoinsMap.view_of_find?_eq_none hfind).symm
      · show CCoinsMap.view _ (viewOf db (baseGetCoin db cs o).2) = CCoinsMap.view _ (viewOf db cs)
        rw [hv, h₂]

/-- `base->GetCoin` of a stack whose top cache is `c` is that cache's `GetCoin`. -/
theorem baseGetCoin_cons (db : CCoinsViewDB) (c : CCoinsViewCache) (cs : List CCoinsViewCache)
    (o : COutPoint) :
    baseGetCoin db (c :: cs) o =
      ((c.GetCoin db cs o).1, (c.GetCoin db cs o).2.1 :: (c.GetCoin db cs o).2.2) := by
  cases hfind : c.cacheCoins.find? o <;>
    simp [baseGetCoin, CCoinsViewCache.GetCoin, CCoinsViewCache.FetchCoin, hfind]

theorem CCoinsViewCache.FetchCoin_find? {db : CCoinsViewDB} {c : CCoinsViewCache}
    {cs : List CCoinsViewCache} {o : COutPoint} {e : CCoinsCacheEntry}
    (h : (c.FetchCoin db cs o).1 = some e) :
    (c.FetchCoin db cs o).2.1.cacheCoins.find? o = some e := by
  cases hfind : c.cacheCoins.find? o with
  | none => simpa [CCoinsViewCache.FetchCoin, hfind] using h
  | some e' => simpa [CCoinsViewCache.FetchCoin, hfind] using h

namespace CoinsStack

variable {s : CoinsStack}

/-- `FetchCoin` of the top cache finds an entry that shows what the stack shows, keeps what the
stack shows and its invariant, and a spent coin it finds is the cleared one. -/
theorem FetchCoin_spec (hs : s.Inv) (o : COutPoint) :
    let r := s.top.FetchCoin s.db s.below o
    r.1.bind CCoinsCacheEntry.unspentCoin = s.view o ∧
      (⟨r.2.1, r.2.2, s.db⟩ : CoinsStack).view = s.view ∧ (⟨r.2.1, r.2.2, s.db⟩ : CoinsStack).Inv ∧
      ∀ e, r.1 = some e → e.coin.IsSpent = true → e.coin = Coin.empty := by
  have h := baseGetCoin_spec s.db o (s.top :: s.below) hs
  rw [baseGetCoin_cons] at h
  obtain ⟨h₁, h₂, h₃⟩ := h
  refine ⟨h₁, h₂, h₃, fun e he hspent => ?_⟩
  exact (h₃.1.entries o e (CCoinsViewCache.FetchCoin_find? he)).spentEmpty hspent

/-- The reads of the top cache answer as the plain map the stack shows, and keep it and the
invariant; `HaveCoinInCache` finds only coins the map holds. -/
theorem reads_spec (hs : s.Inv) (o : COutPoint) :
    ((s.GetCoin o).1 = s.view o ∧ (s.GetCoin o).2.view = s.view ∧ (s.GetCoin o).2.Inv) ∧
      ((s.HaveCoin o).1 = s.view.HaveCoin o ∧ (s.HaveCoin o).2.view = s.view ∧
        (s.HaveCoin o).2.Inv) ∧
      ((s.AccessCoin o).1 = s.view.AccessCoin o ∧ (s.AccessCoin o).2.view = s.view ∧
        (s.AccessCoin o).2.Inv) ∧
      (s.HaveCoinInCache o = true → s.view.HaveCoin o = true) := by
  obtain ⟨h₁, h₂, h₃, hempty⟩ := FetchCoin_spec hs o
  refine ⟨⟨h₁, h₂, h₃⟩, ⟨?_, h₂, h₃⟩, ⟨?_, h₂, h₃⟩, ?_⟩
  · -- `HaveCoin` asks whether the entry found is unspent
    rw [CoinsMap.HaveCoin, ← h₁]
    simp only [HaveCoin, CCoinsViewCache.HaveCoin]
    cases (s.top.FetchCoin s.db s.below o).1 with
    | none => rfl
    | some e =>
      cases hsp : e.coin.IsSpent <;> simp [CCoinsCacheEntry.unspentCoin, hsp]
  · -- `AccessCoin` gives the entry's coin, which is the cleared one when it is spent
    rw [CoinsMap.AccessCoin, ← h₁]
    simp only [AccessCoin, CCoinsViewCache.AccessCoin]
    cases hr : (s.top.FetchCoin s.db s.below o).1 with
    | none => rfl
    | some e =>
      cases hsp : e.coin.IsSpent
      · simp [CCoinsCacheEntry.unspentCoin, hsp]
      · simp [CCoinsCacheEntry.unspentCoin, hempty e hr hsp]
  · -- an unspent coin of the top cache is what the top cache shows
    intro hin
    simp only [HaveCoinInCache, CCoinsViewCache.HaveCoinInCache] at hin
    cases hfind : s.top.cacheCoins.find? o with
    | none => simp [hfind] at hin
    | some e =>
      simp only [hfind, Bool.not_eq_eq_eq_not, Bool.not_true] at hin
      simp [CoinsMap.HaveCoin, view, viewOf, CCoinsMap.view_of_find?_eq_some hfind,
        CCoinsCacheEntry.unspentCoin, hin]

end CoinsStack

/-! ## Flushing -/

/-- `Flush` of a cache over the caches below it does not throw, leaves the cache empty, and keeps
what the stack shows and its invariant: the entries move into the view below, where their flags
hold. -/
theorem CCoinsViewCache.Flush_spec {db : CCoinsViewDB} {c : CCoinsViewCache}
    {cs : List CCoinsViewCache} (hinv : LayersInv db (c :: cs)) :
    ∃ r, c.Flush db cs = .ok r ∧ r.1 = empty ∧ viewOf r.2.2 r.2.1 = viewOf db (c :: cs) ∧
      LayersInv r.2.2 r.2.1 := by
  obtain ⟨hc, hcs⟩ := hinv
  cases cs with
  | nil =>
    refine ⟨(empty, [], db.BatchWrite c.cacheCoins), rfl, rfl, ?_, trivial⟩
    exact db.coins_BatchWrite hc.entries
  | cons p cs =>
    obtain ⟨hp, hcs⟩ := hcs
    obtain ⟨p', hw, hp', hview⟩ := p.BatchWrite_spec (viewOf_unspent db cs) hp hc.entries
    exact ⟨(empty, p' :: cs, db), by rw [Flush, hw]; rfl, rfl, hview, hp', hcs⟩

/-- `Flush` of the cache at any depth keeps what the stack shows and its invariant. The
induction is on the depth; the caches above the flushed one see the same view below them. -/
theorem flushLayer_spec (db : CCoinsViewDB) : ∀ (i : ℕ) (cs : List CCoinsViewCache),
    LayersInv db cs →
    ∃ r, flushLayer db i cs = .ok r ∧ viewOf r.2 r.1 = viewOf db cs ∧ LayersInv r.2 r.1
  | _, [], _ => ⟨([], db), by cases ‹ℕ› <;> rfl, rfl, trivial⟩
  | 0, c :: cs, hinv => by
    obtain ⟨r, hr, hempty, hview, hinv'⟩ := CCoinsViewCache.Flush_spec hinv
    refine ⟨(r.1 :: r.2.1, r.2.2), by rw [flushLayer, hr]; rfl, ?_, ?_⟩
    · rw [← hview, hempty]
      rfl
    · rw [hempty]
      exact ⟨CCoinsViewCache.Inv_empty _, hinv'⟩
  | i + 1, c :: cs, ⟨hc, hcs⟩ => by
    obtain ⟨r, hr, hview, hinv'⟩ := flushLayer_spec db i cs hcs
    refine ⟨(c :: r.1, r.2), by rw [flushLayer, hr]; rfl, ?_, ?_, hinv'⟩
    · show CCoinsMap.view _ (viewOf r.2 r.1) = CCoinsMap.view _ (viewOf db cs)
      rw [hview]
    · show c.Inv (viewOf r.2 r.1)
      rw [hview]
      exact hc

/-- Flushing every cache from the top down does not throw and leaves in the database what the
stack showed. The induction is on the caches below the top one. -/
theorem flushAll_spec (db : CCoinsViewDB) : ∀ (top : CCoinsViewCache) (cs : List CCoinsViewCache),
    LayersInv db (top :: cs) → ∃ db', flushAll db top cs = .ok db' ∧ db'.coins = viewOf db (top :: cs)
  | top, [], ⟨htop, _⟩ => ⟨db.BatchWrite top.cacheCoins, rfl, db.coins_BatchWrite htop.entries⟩
  | top, p :: cs, ⟨htop, hp, hcs⟩ => by
    obtain ⟨p', hw, hp', hview⟩ := p.BatchWrite_spec (viewOf_unspent db cs) hp htop.entries
    obtain ⟨db', h', hcoins⟩ := flushAll_spec db p' cs ⟨hp', hcs⟩
    refine ⟨db', by rw [flushAll, hw]; exact h', ?_⟩
    rw [hcoins]
    exact hview

/-- `Uncache` of any cache below the top keeps what the stack shows and its invariant. -/
theorem LayersInv_modify_Uncache (db : CCoinsViewDB) (o : COutPoint) :
    ∀ (i : ℕ) (cs : List CCoinsViewCache), LayersInv db cs →
    viewOf db (cs.modify i (·.Uncache o)) = viewOf db cs ∧
      LayersInv db (cs.modify i (·.Uncache o))
  | _, [], _ => by
    rw [List.modify_nil]
    exact ⟨rfl, trivial⟩
  | 0, c :: cs, ⟨hc, hcs⟩ => by
    obtain ⟨hinv, hview⟩ := CCoinsViewCache.Uncache_spec (viewOf_unspent db cs) hc (o := o)
    rw [List.modify_zero_cons]
    exact ⟨by simp only [viewOf, hview], hinv, hcs⟩
  | i + 1, c :: cs, ⟨hc, hcs⟩ => by
    obtain ⟨hview, hinv⟩ := LayersInv_modify_Uncache db o i cs hcs
    rw [List.modify_succ_cons]
    refine ⟨by simp only [viewOf, hview], ?_, hinv⟩
    show c.Inv (viewOf db (cs.modify i (·.Uncache o)))
    rw [hview]
    exact hc

/-! ## Each operation of the stack -/

namespace CoinsStack

variable {s : CoinsStack}

theorem AddCoin_spec (hs : s.Inv) {o : COutPoint} {coin : Coin} {possible_overwrite : Bool}
    (hcoin : coin.IsSpent = false) (htruth : s.view.HaveCoin o = true → possible_overwrite = true) :
    ∃ s', s.AddCoin o coin possible_overwrite = .ok s' ∧ s'.Inv ∧
      some s'.view = s.view.AddCoin o coin := by
  obtain ⟨htop, hbelow⟩ := hs
  obtain ⟨t, ht, htinv, hview⟩ :=
    s.top.AddCoin_spec (viewOf_unspent s.db s.below) htop hcoin htruth
  exact ⟨⟨t, s.below, s.db⟩, by rw [AddCoin, ht]; rfl, ⟨htinv, hbelow⟩, hview⟩

/-- `SpendCoin` moves out the coin the plain map's `SpendCoin` moves out, and leaves what it
leaves, keeping the invariant. -/
theorem SpendCoin_spec (hs : s.Inv) (o : COutPoint) :
    (s.SpendCoin o).2.1 = (s.view.SpendCoin o).2.1 ∧
      (s.SpendCoin o).2.2.view = (s.view.SpendCoin o).2.2 ∧ (s.SpendCoin o).2.2.Inv := by
  obtain ⟨h₁, h₂, ⟨htop, hbelow⟩, hempty⟩ := FetchCoin_spec hs o
  cases hr : (s.top.FetchCoin s.db s.below o).1 with
  | none =>
    -- nothing found: the map holds no coin either
    rw [hr] at h₁
    have hnone : s.view o = none := h₁.symm
    have hspend : s.SpendCoin o = (false, Coin.empty, ⟨(s.top.FetchCoin s.db s.below o).2.1,
        (s.top.FetchCoin s.db s.below o).2.2, s.db⟩) := by
      simp [SpendCoin, CCoinsViewCache.SpendCoin, hr]
    rw [hspend, CoinsMap.SpendCoin, hnone]
    exact ⟨rfl, h₂, htop, hbelow⟩
  | some e =>
    rw [hr] at h₁
    obtain ⟨hinv, hview⟩ :=
      CCoinsViewCache.spendEntry_spec htop (CCoinsViewCache.FetchCoin_find? hr)
    have hspend : s.SpendCoin o = (true, e.coin,
        ⟨(s.top.FetchCoin s.db s.below o).2.1.spendEntry o e,
          (s.top.FetchCoin s.db s.below o).2.2, s.db⟩) := by
      simp [SpendCoin, CCoinsViewCache.SpendCoin, hr]
    -- after the spend the stack shows no coin at the outpoint
    have hafter : (⟨(s.top.FetchCoin s.db s.below o).2.1.spendEntry o e,
        (s.top.FetchCoin s.db s.below o).2.2, s.db⟩ : CoinsStack).view =
        Function.update s.view o none := by
      rw [← h₂]
      exact hview
    rw [hspend, CoinsMap.SpendCoin]
    cases hsp : e.coin.IsSpent
    · have hsome : s.view o = some e.coin := by
        rw [← h₁, Option.bind_some, CCoinsCacheEntry.unspentCoin_of_unspent hsp]
      rw [hsome]
      exact ⟨rfl, hafter, hinv, hbelow⟩
    · -- a spent entry holds the cleared coin, and the map holds nothing there
      have hnone : s.view o = none := by
        rw [← h₁, Option.bind_some, CCoinsCacheEntry.unspentCoin_of_spent hsp]
      rw [hnone]
      refine ⟨hempty e hr hsp, ?_, hinv, hbelow⟩
      rw [hafter]
      exact Function.update_eq_self_iff.mpr hnone.symm

theorem Uncache_spec (hs : s.Inv) (i : ℕ) (o : COutPoint) :
    (s.Uncache i o).view = s.view ∧ (s.Uncache i o).Inv := by
  obtain ⟨htop, hbelow⟩ := hs
  cases i with
  | zero =>
    obtain ⟨hinv, hview⟩ := CCoinsViewCache.Uncache_spec (viewOf_unspent s.db s.below) htop (o := o)
    exact ⟨by simp only [Uncache, view, viewOf, hview], hinv, hbelow⟩
  | succ i =>
    obtain ⟨hview, hinv⟩ := LayersInv_modify_Uncache s.db o i s.below hbelow
    refine ⟨by simp only [Uncache, view, viewOf, hview], ?_, hinv⟩
    show s.top.Inv (viewOf s.db (s.below.modify i (·.Uncache o)))
    rw [hview]
    exact htop

theorem Flush_spec (hs : s.Inv) (i : ℕ) : ∃ s', s.Flush i = .ok s' ∧ s'.view = s.view ∧ s'.Inv := by
  cases i with
  | zero =>
    obtain ⟨r, hr, hempty, hview, hinv⟩ := CCoinsViewCache.Flush_spec hs
    refine ⟨⟨r.1, r.2.1, r.2.2⟩, by simp [Flush, hr, Except.map], ?_, ?_⟩
    · show viewOf r.2.2 (r.1 :: r.2.1) = viewOf s.db (s.top :: s.below)
      rw [← hview, hempty]
      rfl
    · show LayersInv r.2.2 (r.1 :: r.2.1)
      rw [hempty]
      exact ⟨CCoinsViewCache.Inv_empty _, hinv⟩
  | succ i =>
    obtain ⟨htop, hbelow⟩ := hs
    obtain ⟨r, hr, hview, hinv⟩ := flushLayer_spec s.db i s.below hbelow
    refine ⟨⟨s.top, r.1, r.2⟩, by simp [Flush, hr, Except.map], ?_, ?_, hinv⟩
    · show CCoinsMap.view _ (viewOf r.2 r.1) = CCoinsMap.view _ (viewOf s.db s.below)
      rw [hview]
    · show s.top.Inv (viewOf r.2 r.1)
      rw [hview]
      exact htop

theorem push_spec (hs : s.Inv) : s.push.view = s.view ∧ s.push.Inv :=
  ⟨rfl, CCoinsViewCache.Inv_empty _, hs⟩

theorem pop_spec (hs : s.Inv) : ∃ s', s.pop = .ok s' ∧ s'.view = s.view ∧ s'.Inv := by
  obtain ⟨r, hr, hempty, hview, hinv⟩ := CCoinsViewCache.Flush_spec hs
  -- the flushed top cache is empty, so the caches below it show what the stack showed
  have hbelow : viewOf r.2.2 r.2.1 = s.view := hview
  cases hcs : r.2.1 with
  | nil =>
    rw [hcs] at hbelow hinv
    exact ⟨⟨CCoinsViewCache.empty, [], r.2.2⟩, by simp [pop, hr, hcs, Except.map], hbelow,
      CCoinsViewCache.Inv_empty _, trivial⟩
  | cons c cs =>
    rw [hcs] at hbelow hinv
    exact ⟨⟨c, cs, r.2.2⟩, by simp [pop, hr, hcs, Except.map], hbelow, hinv⟩

/-- One operation on a stack that keeps its invariant, with `possible_overwrite` truthful about
what the stack shows: nothing is thrown, the invariant is kept, and the stack shows what the
plain map shows after the same operation. -/
theorem applyOp_spec (hs : s.Inv) {op : CoinsOp} (htruth : op.Truthful s.view) {m : CoinsMap}
    (hm : s.view.applyOp op = some m) : ∃ s', s.applyOp op = .ok s' ∧ s'.Inv ∧ s'.view = m := by
  cases op with
  | AddCoin o coin possible_overwrite =>
    have hcoin : coin.IsSpent = false := by
      by_contra h
      simp [CoinsMap.applyOp, CoinsMap.AddCoin, h] at hm
    obtain ⟨s', h', hinv, hview⟩ := AddCoin_spec hs hcoin htruth
    rw [CoinsMap.applyOp, ← hview, Option.some_inj] at hm
    exact ⟨s', h', hinv, hm⟩
  | SpendCoin o =>
    obtain ⟨-, hview, hinv⟩ := SpendCoin_spec hs o
    rw [CoinsMap.applyOp, Option.some_inj] at hm
    exact ⟨_, rfl, hinv, hview.trans hm⟩
  | Uncache i o =>
    obtain ⟨hview, hinv⟩ := Uncache_spec hs i o
    cases hm
    exact ⟨_, rfl, hinv, hview⟩
  | Flush i =>
    cases hm
    exact Flush_spec hs i |>.imp fun _ h => ⟨h.1, h.2.2, h.2.1⟩
  | push =>
    cases hm
    exact ⟨_, rfl, (push_spec hs).2, (push_spec hs).1⟩
  | pop =>
    cases hm
    exact pop_spec hs |>.imp fun _ h => ⟨h.1, h.2.2, h.2.1⟩
  | GetCoin o =>
    cases hm
    obtain ⟨⟨-, hview, hinv⟩, -⟩ := reads_spec hs o
    exact ⟨_, rfl, hinv, hview⟩
  | HaveCoin o =>
    cases hm
    obtain ⟨-, ⟨-, hview, hinv⟩, -⟩ := reads_spec hs o
    exact ⟨_, rfl, hinv, hview⟩
  | AccessCoin o =>
    cases hm
    obtain ⟨-, -, ⟨-, hview, hinv⟩, -⟩ := reads_spec hs o
    exact ⟨_, rfl, hinv, hview⟩
  | HaveCoinInCache o =>
    cases hm
    exact ⟨s, rfl, hs, rfl⟩

/-- A run of operations, truthful about the plain map along the way: nothing is thrown, the
invariant holds at its end, and the stack shows what the plain map shows after the same run.
The induction is on the operations, with `applyOp_spec` at each. -/
theorem runOps_spec : ∀ {s : CoinsStack} {ops : List CoinsOp} {m : CoinsMap}, s.Inv →
    TruthfulOps s.view ops → s.view.runOps ops = some m →
    ∃ s', s.runOps ops = .ok s' ∧ s'.Inv ∧ s'.view = m
  | s, [], m, hs, _, hm => by
    cases hm
    exact ⟨s, rfl, hs, rfl⟩
  | s, op :: ops, m, hs, ⟨hop, hrest⟩, hm => by
    simp only [CoinsMap.runOps, List.foldlM_cons] at hm
    obtain ⟨m₁, hm₁, hm'⟩ := Option.bind_eq_some_iff.mp hm
    obtain ⟨s₁, h₁, hinv₁, hview₁⟩ := applyOp_spec hs hop hm₁
    obtain ⟨s', h', hinv', hview'⟩ :=
      runOps_spec hinv₁ (hview₁ ▸ hrest m₁ hm₁) (hview₁ ▸ hm')
    refine ⟨s', ?_, hinv', hview'⟩
    simp only [runOps, List.foldlM_cons, h₁]
    exact h'

/-- The plain map fails only at an `AddCoin` of a spent coin, where the stack fails the same
assertion. -/
theorem applyOp_of_applyOp_eq_none {op : CoinsOp} (hm : s.view.applyOp op = none) :
    s.applyOp op = .error .assertion := by
  cases op with
  | AddCoin o coin possible_overwrite =>
    have hcoin : coin.IsSpent = true := by
      by_contra h
      rw [CoinsMap.applyOp, CoinsMap.AddCoin_of_unspent (Bool.eq_false_iff.mpr h)] at hm
      cases hm
    simp [applyOp, AddCoin, CCoinsViewCache.AddCoin, hcoin, Except.map]
  | _ => cases hm

/-- A run on which the plain map fails makes the stack fail the assertion of `AddCoin`, and
nothing else: every operation before it keeps the invariant by `applyOp_spec`. -/
theorem runOps_of_runOps_eq_none : ∀ {s : CoinsStack} {ops : List CoinsOp}, s.Inv →
    TruthfulOps s.view ops → s.view.runOps ops = none → s.runOps ops = .error .assertion
  | _, [], _, _, hm => by cases hm
  | s, op :: ops, hs, ⟨hop, hrest⟩, hm => by
    cases hm₁ : s.view.applyOp op with
    | none =>
      rw [runOps, List.foldlM_cons, applyOp_of_applyOp_eq_none hm₁]
      rfl
    | some m₁ =>
      have hm' : m₁.runOps ops = none := by
        simp only [CoinsMap.runOps, List.foldlM_cons, hm₁] at hm
        exact hm
      obtain ⟨s₁, h₁, hinv₁, hview₁⟩ := applyOp_spec hs hop hm₁
      rw [runOps, List.foldlM_cons, h₁]
      exact runOps_of_runOps_eq_none hinv₁ (hview₁ ▸ hrest m₁ hm₁) (hview₁ ▸ hm')

end CoinsStack

/-! ## A database with one coin -/

/-- The outpoints `0:0` and `0:1`. -/
def coinOutPoint : COutPoint := ⟨0, 0⟩

def nextOutPoint : COutPoint := ⟨0, 1⟩

/-- Unspent coins of value `1` and `2`. -/
def oneCoin : Coin := ⟨⟨1, []⟩, false, false, 1⟩

def twoCoin : Coin := ⟨⟨2, []⟩, false, false, 1⟩

/-- The coins of a database holding `oneCoin` at `coinOutPoint` alone. -/
def oneCoinMap : CoinsMap := fun o => if o = coinOutPoint then some oneCoin else none

theorem oneCoinMap_unspent : oneCoinMap.Unspent := by
  intro o coin h
  simp only [oneCoinMap] at h
  split at h
  · cases h
    rfl
  · cases h

def oneCoinDB : CCoinsViewDB := ⟨oneCoinMap, oneCoinMap_unspent⟩

/-- A run that adds `oneCoin` at `nextOutPoint`, pushes a cache, spends the database's coin
through it, flushes the cache below it and pops the top one. -/
def sampleOps : List CoinsOp :=
  [.AddCoin nextOutPoint oneCoin false, .push, .SpendCoin coinOutPoint, .Flush 1, .pop,
    .HaveCoinInCache coinOutPoint]

/-- The plain map after `sampleOps`. -/
def sampleMap : CoinsMap :=
  Function.update (Function.update oneCoinMap nextOutPoint (some oneCoin)) coinOutPoint none

theorem sampleOps_truthful : TruthfulOps (CoinsStack.init oneCoinDB).view sampleOps := by
  -- `nextOutPoint` holds nothing, so the `AddCoin` without `possible_overwrite` is truthful
  refine ⟨fun h => absurd h (by decide), fun _ _ => ?_⟩
  simp [TruthfulOps, CoinsOp.Truthful]

theorem runOps_sampleOps : (CoinsStack.init oneCoinDB).view.runOps sampleOps = some sampleMap :=
  rfl

namespace CoinsStack

variable {s : CoinsStack}

/-- A stack of caches that keeps its invariant, as every stack built from empty caches over the
database by these operations does, follows the plain map: along a run whose `AddCoin`s set
`possible_overwrite` whenever the map holds a coin, nothing is thrown, `GetCoin`, `HaveCoin` and
`AccessCoin` of the top cache answer what the map answers, `HaveCoinInCache` finds only coins of
the map, and flushing every cache leaves the map in the database. -/
theorem CoinsStack_refines_CoinsMap (hs : s.Inv) {ops : List CoinsOp} {m : CoinsMap}
    (htruth : TruthfulOps s.view ops) (hm : s.view.runOps ops = some m) :
    ∃ s', s.runOps ops = .ok s' ∧
      (∀ o, (s'.GetCoin o).1 = m o ∧ (s'.HaveCoin o).1 = m.HaveCoin o ∧
        (s'.AccessCoin o).1 = m.AccessCoin o ∧ (s'.HaveCoinInCache o = true → m.HaveCoin o = true)) ∧
      ∃ db, s'.flushAll = .ok db ∧ db.coins = m := by
  obtain ⟨s', hrun, hinv, hview⟩ := runOps_spec hs htruth hm
  subst hview
  refine ⟨s', hrun, fun o => ?_, ?_⟩
  · obtain ⟨⟨hget, -⟩, ⟨hhave, -⟩, ⟨haccess, -⟩, hcache⟩ := reads_spec hinv o
    exact ⟨hget, hhave, haccess, hcache⟩
  · exact flushAll_spec s'.db s'.top s'.below hinv

theorem CoinsStack_refines_CoinsMap_oneCoinDB :
    ∃ s', (init oneCoinDB).runOps sampleOps = .ok s' ∧
      (s'.GetCoin coinOutPoint).1 = none ∧ (s'.GetCoin nextOutPoint).1 = some oneCoin ∧
      ∃ db, s'.flushAll = .ok db ∧ db.coins = sampleMap := by
  obtain ⟨s', hrun, hreads, hflush⟩ := CoinsStack_refines_CoinsMap
    (⟨CCoinsViewCache.Inv_empty _, trivial⟩ : (init oneCoinDB).Inv) sampleOps_truthful
    runOps_sampleOps
  exact ⟨s', hrun, (hreads coinOutPoint).1.trans rfl, (hreads nextOutPoint).1.trans rfl, hflush⟩

/-- `HaveCoinInCache` looks at the top cache alone: over a database holding a coin, a fresh
cache does not find it, while the map holds it. -/
theorem HaveCoinInCache_init_oneCoinDB :
    (init oneCoinDB).HaveCoinInCache coinOutPoint = false ∧
      (init oneCoinDB).view.HaveCoin coinOutPoint = true := by
  decide

/-- The invariant of every cache of the stack, `CCoinsViewCache.Inv` over the view of the
caches below it, holds in every state a run reaches, and the run throws no `logic_error`:
`cachedCoinsUsage` is the memory of the entries, a `FRESH` entry sits over no coin below, an
entry that is not `DIRTY` holds the coin below, as long as the run's `AddCoin`s set
`possible_overwrite` whenever the stack shows a coin. The only exception left is the assertion
of `AddCoin` on a spent coin. -/
theorem reachable_Inv (hs : s.Inv) {ops : List CoinsOp} (htruth : TruthfulOps s.view ops) :
    (∀ s', s.runOps ops = .ok s' → s'.Inv) ∧ ∀ e, s.runOps ops = .error e → e = .assertion := by
  cases hm : s.view.runOps ops with
  | none =>
    rw [runOps_of_runOps_eq_none hs htruth hm]
    exact ⟨(fun _ h => nomatch h), fun _ h => by cases h; rfl⟩
  | some m =>
    obtain ⟨s', hrun, hinv, -⟩ := runOps_spec hs htruth hm
    rw [hrun]
    exact ⟨fun _ h => by cases h; exact hinv, (fun _ h => nomatch h)⟩

theorem reachable_Inv_oneCoinDB :
    (∀ s', (init oneCoinDB).runOps sampleOps = .ok s' → s'.Inv) ∧
      ∀ e, (init oneCoinDB).runOps sampleOps = .error e → e = .assertion :=
  reachable_Inv (⟨CCoinsViewCache.Inv_empty _, trivial⟩ : (init oneCoinDB).Inv) sampleOps_truthful

/-- Without a truthful `possible_overwrite`, `AddCoin` over a fresh cache does not throw although
the database holds a coin at the outpoint: the cache does not fetch it, and the new entry is
`FRESH` over that coin. Spending the entry then erases it, and the database's coin shows again,
where the plain map holds none. -/
theorem AddCoin_untruthful_resurrects :
    ∃ s', (init oneCoinDB).runOps [.AddCoin coinOutPoint twoCoin false] = .ok s' ∧
      (∃ e, s'.top.cacheCoins.find? coinOutPoint = some e ∧ e.fresh = true) ∧
      viewOf s'.db s'.below coinOutPoint = some oneCoin ∧
      (s'.SpendCoin coinOutPoint).2.2.view coinOutPoint = some oneCoin := by
  refine ⟨_, rfl, ⟨_, rfl, rfl⟩, rfl, ?_⟩
  decide

end CoinsStack

end HydraNode
