import HydraNode.Util.SlotBuffer
import HydraNode.Lib.Loop

/-!
# `prevector`

A `prevector<N, T>` (`prevector.h`) keeps up to `N` elements in the object itself and more on
the heap. Its `_size` says which: at most `N` is the number of elements, in `direct` storage;
above `N` it is the number of elements plus `N + 1`, and `_union` holds the capacity and the
pointer of a heap array. `change_capacity` moves the elements between the two and adjusts
`_size`; insertions `memmove` the tail up, erasures down.

Each operation is modelled on the two storages as buffers of slots (`Buffer`), every write,
copy and move checked against the bounds of its buffer: an access outside is an error, the
memory corruption it would be. `size_type` is `uint32_t`, and its arithmetic is reduced
modulo `2 ^ 32`. The elements are of a trivially copyable type `T`; `T{}` is `default`.

What a `prevector` is for is a `std::vector`: a list of elements, `toList`, read off the
storage `item_ptr` points into. Every operation acts on it as on a list, and keeps the
representation invariant `Inv`, for vectors of fewer than `2 ^ 31` elements and `N < 2 ^ 31`,
the bound under which the `_size` of a heap vector, its size plus `N + 1`, fits `size_type` for
every such size (`exec_spec`, `run_spec`); so do the copy and move constructors and assignments and `swap` on
several vectors (`Cmd.run_spec`). Outside these bounds the arithmetic of `size_type` shows: a
vector of `3 · 2 ^ 30` elements has no room to grow, the growth `new_size + (new_size >> 1)`
wraps, and `push_back` writes past the end of the heap array (`push_back_wraps`); `pop_back` on
an empty vector wraps `_size` (`pop_back_empty`).

## Main definitions

* `prevector`, `prevector.Inv`, `prevector.toList`
* `prevector.change_capacity`, `push_back`, `insert`, `erase`, `resize`, `assign` and the others
* `prevector.Op`, `prevector.exec`, `prevector.run` — sequences of operations on one vector
* `prevector.Cmd`, `prevector.Cmd.exec`, `prevector.Cmd.run` — on several

## Main results

* `prevector.change_capacity_spec` — moving between the storages keeps the elements
* `prevector.exec_spec`, `prevector.Cmd.exec_spec` — one operation, on the list and on the
  invariant
* `prevector.run_spec`, `prevector.Cmd.run_spec` — any sequence of them
* `prevector.push_back_of_wrap` — where the growth wraps
-/

namespace HydraNode

/-- A `size_type` (`uint32_t`) value: reduced modulo `2 ^ 32`. -/
def toSizeType (x : ℕ) : ℕ := x % 2 ^ 32

theorem toSizeType_lt (x : ℕ) : toSizeType x < 2 ^ 32 :=
  Nat.mod_lt _ (by norm_num)

theorem toSizeType_of_lt {x : ℕ} (h : x < 2 ^ 32) : toSizeType x = x :=
  Nat.mod_eq_of_lt h

/-- `a - b` for `size_type` values: reduced modulo `2 ^ 32`, so a `b` above `a` wraps. -/
def subSizeType (a b : ℕ) : ℕ := toSizeType (a + (2 ^ 32 - toSizeType b))

theorem subSizeType_of_le {a b : ℕ} (h : b ≤ a) (ha : a < 2 ^ 32) : subSizeType a b = a - b := by
  rw [subSizeType, toSizeType_of_lt (lt_of_le_of_lt h ha), toSizeType]
  omega

/-- `prevector<N, T>`: `_size`, and the members of `_union`, the `direct` storage and the
`capacity` and `indirect` array of the heap. Only the members `_size` selects are read. -/
structure prevector (N : ℕ) (T : Type) where
  _size : ℕ
  _direct : List (Option T)
  _capacity : ℕ
  _indirect : List (Option T)

namespace prevector

variable {N : ℕ} {T : Type}

/-! ## The source -/

/-- `prevector()`: no element, in direct storage. -/
def empty : prevector N T := ⟨0, Buffer.uninit N, 0, []⟩

/-- `is_direct()`. -/
def is_direct (v : prevector N T) : Bool := v._size ≤ N

/-- `size()`. -/
def size (v : prevector N T) : ℕ := if v.is_direct then v._size else v._size - N - 1

/-- `capacity()`. -/
def capacity (v : prevector N T) : ℕ := if v.is_direct then N else v._capacity

/-- The storage `item_ptr` points into when `direct` is what `is_direct()` returned. -/
def storage (v : prevector N T) (direct : Bool) : List (Option T) :=
  if direct then v._direct else v._indirect

/-- Writing that storage. -/
def store (v : prevector N T) (direct : Bool) (buf : List (Option T)) : prevector N T :=
  if direct then { v with _direct := buf } else { v with _indirect := buf }

/-- `fill` or placement `new` of `values` from `item_ptr(pos)` on. -/
def fillAt (v : prevector N T) (direct : Bool) (pos : ℕ) (values : List T) :
    Except String (prevector N T) :=
  if pos + values.length ≤ (v.storage direct).length then
    .ok (v.store direct (Buffer.write (v.storage direct) pos (values.map some)))
  else .error "write out of bounds"

/-- `memmove(item_ptr(dst), item_ptr(src), n * sizeof(T))`. -/
def memmoveAt (v : prevector N T) (direct : Bool) (dst src n : ℕ) :
    Except String (prevector N T) :=
  if dst + n ≤ (v.storage direct).length ∧ src + n ≤ (v.storage direct).length then
    .ok (v.store direct (Buffer.move (v.storage direct) dst src n))
  else .error "memmove out of bounds"

/-- `change_capacity`: into direct storage for a capacity up to `N`, copying the elements out of
the heap; otherwise `realloc` of the heap array, or a new one the elements are copied into.
`_size` moves by `N + 1` with the storage. -/
def change_capacity (v : prevector N T) (new_capacity : ℕ) : Except String (prevector N T) :=
  if new_capacity ≤ N then
    if !v.is_direct then
      if v.size ≤ v._indirect.length ∧ v.size ≤ v._direct.length then
        .ok { v with
          _direct := Buffer.write v._direct 0 (v._indirect.take v.size)
          _indirect := []
          -- `_size -= N + 1`, above `N` here
          _size := toSizeType (v._size - (N + 1)) }
      else .error "memcpy out of bounds"
    else .ok v
  else
    if !v.is_direct then
      .ok { v with
        _indirect := Buffer.resize v._indirect new_capacity
        _capacity := new_capacity }
    else
      if v.size ≤ v._direct.length ∧ v.size ≤ new_capacity then
        .ok { v with
          _indirect := Buffer.write (Buffer.uninit new_capacity) 0 (v._direct.take v.size)
          _capacity := new_capacity
          _size := toSizeType (v._size + (N + 1)) }
      else .error "memcpy out of bounds"

/-- The growth of `insert` and `push_back`: to `new_size + (new_size >> 1)` when the capacity
is below `new_size`. -/
def grow (v : prevector N T) (new_size : ℕ) : Except String (prevector N T) :=
  if v.capacity < new_size then v.change_capacity (toSizeType (new_size + new_size / 2))
  else .ok v

/-- `insert(pos, first, last)`: room for the values after moving the tail up, then the values
at `ptr`, the position before the tail moved. The tail is `size() - p` elements in `size_type`,
which wraps for a position past the end. -/
def insertRange (v : prevector N T) (pos : ℕ) (values : List T) :
    Except String (prevector N T) := do
  let p := pos
  let count := values.length
  let v ← v.grow (toSizeType (v.size + count))
  let direct := v.is_direct
  let v ← v.memmoveAt direct (p + count) p (subSizeType v.size p)
  let v := { v with _size := toSizeType (v._size + count) }
  v.fillAt direct p values

/-- `insert(pos, value)`: `insert(pos, first, last)` of one value. -/
def insert (v : prevector N T) (pos : ℕ) (value : T) : Except String (prevector N T) :=
  v.insertRange pos [value]

/-- `insert(pos, count, value)`: as `insert(pos, first, last)`, but `item_ptr(p)` is taken again
after `_size` has grown. -/
def insertCount (v : prevector N T) (pos count : ℕ) (value : T) :
    Except String (prevector N T) := do
  let p := pos
  let v ← v.grow (toSizeType (v.size + count))
  let direct := v.is_direct
  let v ← v.memmoveAt direct (p + count) p (subSizeType v.size p)
  let v := { v with _size := toSizeType (v._size + count) }
  v.fillAt v.is_direct p (List.replicate count value)

/-- `push_back`. -/
def push_back (v : prevector N T) (value : T) : Except String (prevector N T) := do
  let v ← v.grow (toSizeType (v.size + 1))
  let v ← v.fillAt v.is_direct v.size [value]
  pure { v with _size := toSizeType (v._size + 1) }

/-- `erase(first, last)` at positions `first ≤ last ≤ size()`, for a trivially destructible `T`:
`_size` goes down first, then the tail moves down in the storage the iterators point into. -/
def erase (v : prevector N T) (first last : ℕ) : Except String (prevector N T) :=
  let direct := v.is_direct
  let endp := v.size
  let v := { v with _size := toSizeType (v._size - (last - first)) }
  v.memmoveAt direct first last (endp - last)

/-- `pop_back`: `erase(end() - 1, end())`. On an empty vector `end() - 1` is before the storage
and `_size` wraps. -/
def pop_back (v : prevector N T) : Except String (prevector N T) :=
  -- `erase(end() - 1, end())`: one off `_size`, in `size_type`, and a move of no element
  let direct := v.is_direct
  let endp := v.size
  let v := { v with _size := toSizeType (v._size + (2 ^ 32 - 1)) }
  v.memmoveAt direct (endp - 1) endp 0

/-- `resize`: an erasure down to `new_size`, or new elements `T{}` after a change of capacity. -/
def resize [Inhabited T] (v : prevector N T) (new_size : ℕ) : Except String (prevector N T) :=
  let cur_size := v.size
  if cur_size = new_size then .ok v
  else if cur_size > new_size then v.erase new_size cur_size
  else do
    let v ← if new_size > v.capacity then v.change_capacity new_size else pure v
    let increase := new_size - cur_size
    let v ← v.fillAt v.is_direct cur_size (List.replicate increase default)
    pure { v with _size := toSizeType (v._size + increase) }

/-- `reserve`. -/
def reserve (v : prevector N T) (new_capacity : ℕ) : Except String (prevector N T) :=
  if new_capacity > v.capacity then v.change_capacity new_capacity else .ok v

/-- `shrink_to_fit`. -/
def shrink_to_fit (v : prevector N T) : Except String (prevector N T) :=
  v.change_capacity v.size

/-- `clear`. -/
def clear [Inhabited T] (v : prevector N T) : Except String (prevector N T) :=
  v.resize 0

/-- `assign(first, last)`. -/
def assignRange [Inhabited T] (v : prevector N T) (values : List T) :
    Except String (prevector N T) := do
  let n := toSizeType values.length
  let v ← v.clear
  let v ← if v.capacity < n then v.change_capacity n else pure v
  let v := { v with _size := toSizeType (v._size + n) }
  v.fillAt v.is_direct 0 values

/-- `assign(n, val)`. -/
def assign [Inhabited T] (v : prevector N T) (n : ℕ) (val : T) : Except String (prevector N T) :=
  v.assignRange (List.replicate n val)

/-- The constructors `prevector(n, val)`, `prevector(first, last)` and the copy constructor:
room for the values, then the values. -/
def ofValues (values : List T) : Except String (prevector N T) := do
  let n := toSizeType values.length
  let v ← (empty : prevector N T).change_capacity n
  let v := { v with _size := toSizeType (v._size + n) }
  v.fillAt v.is_direct 0 values

/-- The element sequence: the values of the first `size()` slots of the storage `item_ptr`
points into, if they all hold one. -/
def toList (v : prevector N T) : Option (List T) :=
  Buffer.read (v.storage v.is_direct) v.size

/-- The copy constructor and copy assignment read the elements of `other` from `begin()` to
`end()`. -/
def elements (other : prevector N T) : Except String (List T) :=
  match other.toList with
  | some values => .ok values
  | none => .error "read of an uninitialized element"

/-! ## The representation invariant -/

/-- The representation invariant: `N` slots of direct storage, a `_size` that fits `size_type`,
initialized elements, and in heap storage a heap array of `capacity` slots, more than `N`, that
holds them. -/
structure Inv (v : prevector N T) : Prop where
  length_direct : v._direct.length = N
  size_lt : v._size < 2 ^ 32
  toList_isSome : v.toList.isSome
  heap : v.is_direct = false → N < v._capacity ∧ v._indirect.length = v._capacity ∧
    v.size ≤ v._capacity

@[simp] theorem storage_store (v : prevector N T) (d : Bool) (buf : List (Option T)) :
    (v.store d buf).storage d = buf := by
  cases d <;> rfl

@[simp] theorem is_direct_store (v : prevector N T) (d : Bool) (buf : List (Option T)) :
    (v.store d buf).is_direct = v.is_direct := by
  cases d <;> rfl

@[simp] theorem size_store (v : prevector N T) (d : Bool) (buf : List (Option T)) :
    (v.store d buf).size = v.size := by
  cases d <;> rfl

@[simp] theorem _capacity_store (v : prevector N T) (d : Bool) (buf : List (Option T)) :
    (v.store d buf)._capacity = v._capacity := by
  cases d <;> rfl

@[simp] theorem capacity_store (v : prevector N T) (d : Bool) (buf : List (Option T)) :
    (v.store d buf).capacity = v.capacity := by
  cases d <;> rfl

@[simp] theorem _size_store (v : prevector N T) (d : Bool) (buf : List (Option T)) :
    (v.store d buf)._size = v._size := by
  cases d <;> rfl

@[simp] theorem store_store (v : prevector N T) (d : Bool) (buf buf' : List (Option T)) :
    (v.store d buf).store d buf' = v.store d buf' := by
  cases d <;> rfl

@[simp] theorem storage_withSize (v : prevector N T) (s : ℕ) (d : Bool) :
    ({ v with _size := s } : prevector N T).storage d = v.storage d :=
  rfl

theorem store_withSize (v : prevector N T) (s : ℕ) (d : Bool) (buf : List (Option T)) :
    ({ v with _size := s } : prevector N T).store d buf =
      ⟨s, (v.store d buf)._direct, (v.store d buf)._capacity, (v.store d buf)._indirect⟩ := by
  cases d <;> rfl

theorem fillAt_ok {v : prevector N T} {d : Bool} {pos : ℕ} {values : List T}
    (h : pos + values.length ≤ (v.storage d).length) :
    v.fillAt d pos values = .ok (v.store d (Buffer.write (v.storage d) pos (values.map some))) :=
  if_pos h

theorem memmoveAt_ok {v : prevector N T} {d : Bool} {dst src n : ℕ}
    (hdst : dst + n ≤ (v.storage d).length) (hsrc : src + n ≤ (v.storage d).length) :
    v.memmoveAt d dst src n = .ok (v.store d (Buffer.move (v.storage d) dst src n)) :=
  if_pos ⟨hdst, hsrc⟩

theorem eq_of_memmoveAt {v w : prevector N T} {d : Bool} {dst src n : ℕ}
    (h : v.memmoveAt d dst src n = .ok w) :
    w = v.store d (Buffer.move (v.storage d) dst src n) := by
  unfold memmoveAt at h
  split_ifs at h
  exact (Except.ok.inj h).symm

theorem is_direct_eq_true {v : prevector N T} : v.is_direct = true ↔ v._size ≤ N := by
  simp [is_direct]

theorem is_direct_eq_false {v : prevector N T} : v.is_direct = false ↔ N < v._size := by
  simp [is_direct]

theorem size_of_direct {v : prevector N T} (h : v.is_direct = true) : v.size = v._size := by
  simp [size, h]

theorem size_of_heap {v : prevector N T} (h : v.is_direct = false) : v.size = v._size - N - 1 := by
  simp [size, h]

theorem capacity_of_direct {v : prevector N T} (h : v.is_direct = true) : v.capacity = N := by
  simp [capacity, h]

theorem capacity_of_heap {v : prevector N T} (h : v.is_direct = false) :
    v.capacity = v._capacity := by
  simp [capacity, h]

theorem capacity_eq {v w : prevector N T} (hd : w.is_direct = v.is_direct)
    (hc : w._capacity = v._capacity) : w.capacity = v.capacity := by
  simp only [capacity, hd, hc]

namespace Inv

variable {v : prevector N T}

/-- The storage `item_ptr` points into has `capacity()` slots. -/
theorem length_storage (hv : v.Inv) : (v.storage v.is_direct).length = v.capacity := by
  cases h : v.is_direct
  · rw [capacity_of_heap h]
    exact (hv.heap h).2.1
  · rw [capacity_of_direct h]
    exact hv.length_direct

theorem size_le_capacity (hv : v.Inv) : v.size ≤ v.capacity := by
  obtain ⟨l, hl⟩ := Option.isSome_iff_exists.mp hv.toList_isSome
  rw [← hv.length_storage]
  exact Buffer.le_length_of_read hl

/-- Storing a buffer of the same length in the storage `item_ptr` points into keeps `N` slots of
direct storage. -/
theorem length_direct_store (hv : v.Inv) {buf : List (Option T)}
    (hlen : buf.length = (v.storage v.is_direct).length) :
    (v.store v.is_direct buf)._direct.length = N := by
  cases h : v.is_direct
  · exact hv.length_direct
  · rw [h] at hlen
    exact hlen.trans hv.length_direct

theorem le_capacity (hv : v.Inv) : N ≤ v.capacity := by
  cases h : v.is_direct
  · rw [capacity_of_heap h]
    exact (hv.heap h).1.le
  · rw [capacity_of_direct h]

end Inv

theorem length_toList {v : prevector N T} {l : List T} (h : v.toList = some l) :
    l.length = v.size :=
  (Buffer.read_eq_some_iff.mp h).1

theorem is_direct_empty : (empty : prevector N T).is_direct = true :=
  is_direct_eq_true.mpr (Nat.zero_le N)

theorem toList_empty : (empty : prevector N T).toList = some [] := by
  rw [toList, size_of_direct is_direct_empty]
  exact Buffer.read_zero _

theorem Inv_empty : (empty : prevector N T).Inv where
  length_direct := Buffer.length_uninit N
  size_lt := by norm_num [empty]
  toList_isSome := by rw [toList_empty]; rfl
  heap h := absurd (is_direct_empty.symm.trans h) (by decide)

/-! ## Changing the capacity -/

section Capacity

variable {v : prevector N T} {l : List T}

/-- `change_capacity` to room for the elements keeps them and the invariant; the capacity is
`N` in direct storage and the one asked otherwise. -/
theorem change_capacity_spec (hv : v.Inv) (hl : v.toList = some l) (new_capacity : ℕ)
    (hroom : l.length ≤ new_capacity) (hcap : new_capacity < 2 ^ 32)
    (hsize : l.length + N + 1 < 2 ^ 32) :
    ∃ v', v.change_capacity new_capacity = .ok v' ∧ v'.Inv ∧ v'.toList = some l ∧
      v'.capacity = max N new_capacity := by
  have hlen := length_toList hl
  have hread := Buffer.le_length_of_read hl
  unfold change_capacity
  split_ifs with hnew hd hbounds hd' hbounds'
  · -- from the heap into direct storage
    replace hd : v.is_direct = false := by simpa using hd
    have hsz : toSizeType (v._size - (N + 1)) = v.size := by
      rw [size_of_heap hd, toSizeType_of_lt (by have := hv.size_lt; omega)]
      omega
    have hdir : (⟨toSizeType (v._size - (N + 1)),
        Buffer.write v._direct 0 (v._indirect.take v.size), v._capacity, []⟩ :
          prevector N T).is_direct = true := by
      rw [is_direct_eq_true]
      dsimp only
      omega
    have hsize' : (⟨toSizeType (v._size - (N + 1)),
        Buffer.write v._direct 0 (v._indirect.take v.size), v._capacity, []⟩ :
          prevector N T).size = v.size := by
      rw [size_of_direct hdir]
      exact hsz
    have hlist : (⟨toSizeType (v._size - (N + 1)),
        Buffer.write v._direct 0 (v._indirect.take v.size), v._capacity, []⟩ :
          prevector N T).toList = some l := by
      rw [toList, hdir, hsize', ← hl, toList, hd]
      exact Buffer.read_write_take hbounds.1
    refine ⟨_, rfl, ⟨?_, ?_, by rw [hlist]; rfl, fun h => absurd (hdir.symm.trans h) (by decide)⟩,
      hlist, ?_⟩
    · rw [Buffer.length_write (by simp; omega), hv.length_direct]
    · dsimp only
      rw [hsz]
      omega
    · rw [capacity_of_direct hdir]
      omega
  · replace hd : v.is_direct = false := by simpa using hd
    have := hv.heap hd
    have : v.size ≤ v._indirect.length := by
      have := Buffer.le_length_of_read hl
      rwa [hd] at this
    exact absurd ⟨this, by rw [hv.length_direct]; omega⟩ hbounds
  · -- already in direct storage
    replace hd : v.is_direct = true := by simpa using hd
    exact ⟨v, rfl, hv, hl, by rw [capacity_of_direct hd]; omega⟩
  · -- `realloc` of the heap array
    replace hd' : v.is_direct = false := by simpa using hd'
    have hheap := hv.heap hd'
    have hsame : (⟨v._size, v._direct, new_capacity, Buffer.resize v._indirect new_capacity⟩ :
        prevector N T).is_direct = false := hd'
    have hsize' : (⟨v._size, v._direct, new_capacity, Buffer.resize v._indirect new_capacity⟩ :
        prevector N T).size = v.size := by
      rw [size_of_heap hsame, size_of_heap hd']
    have hlist : (⟨v._size, v._direct, new_capacity, Buffer.resize v._indirect new_capacity⟩ :
        prevector N T).toList = some l := by
      rw [toList, hsame, hsize', ← hl, toList, hd']
      exact Buffer.read_resize (by omega) (by omega)
    refine ⟨_, rfl, ⟨hv.length_direct, hv.size_lt, by rw [hlist]; rfl, fun _ => ?_⟩, hlist, ?_⟩
    · rw [hsize']
      dsimp only
      exact ⟨by omega, Buffer.length_resize _ _, by omega⟩
    · rw [capacity_of_heap hsame]
      dsimp only
      omega
  · -- from direct storage into a new heap array
    replace hd' : v.is_direct = true := by simpa using hd'
    have hsz : toSizeType (v._size + (N + 1)) = v.size + N + 1 := by
      have h₁ := size_of_direct hd'
      rw [toSizeType_of_lt (by omega)]
      omega
    have hheap : (⟨toSizeType (v._size + (N + 1)), v._direct, new_capacity,
        Buffer.write (Buffer.uninit new_capacity) 0 (v._direct.take v.size)⟩ :
          prevector N T).is_direct = false := by
      rw [is_direct_eq_false]
      dsimp only
      omega
    have hsize' : (⟨toSizeType (v._size + (N + 1)), v._direct, new_capacity,
        Buffer.write (Buffer.uninit new_capacity) 0 (v._direct.take v.size)⟩ :
          prevector N T).size = v.size := by
      rw [size_of_heap hheap]
      dsimp only
      omega
    have hlist : (⟨toSizeType (v._size + (N + 1)), v._direct, new_capacity,
        Buffer.write (Buffer.uninit new_capacity) 0 (v._direct.take v.size)⟩ :
          prevector N T).toList = some l := by
      rw [toList, hheap, hsize', ← hl, toList, hd']
      exact Buffer.read_write_take hbounds'.1
    refine ⟨_, rfl, ⟨hv.length_direct, ?_, by rw [hlist]; rfl, fun _ => ?_⟩, hlist, ?_⟩
    · dsimp only
      omega
    · rw [hsize']
      dsimp only
      refine ⟨by omega, ?_, by omega⟩
      rw [Buffer.length_write (by simp; omega), Buffer.length_uninit]
    · rw [capacity_of_heap hheap]
      dsimp only
      omega
  · replace hd' : v.is_direct = true := by simpa using hd'
    have : v.size ≤ v._direct.length := by
      have := Buffer.le_length_of_read hl
      rwa [hd'] at this
    exact absurd ⟨this, by omega⟩ hbounds'

end Capacity

/-! ## Moving `_size` within one storage -/

section Size

variable {v : prevector N T}

theorem size_le_field_size (v : prevector N T) : v.size ≤ v._size := by
  unfold size
  split <;> omega

/-- `_size` moved to a value on the same side of `N`: the same storage, and the size moves by as
much as `_size` does. -/
theorem withSize_same_side {s : ℕ} (hside : s ≤ N ↔ v._size ≤ N) :
    ({ v with _size := s } : prevector N T).is_direct = v.is_direct ∧
      ({ v with _size := s } : prevector N T).size + v._size = v.size + s := by
  cases hd : v.is_direct
  · have h₁ := is_direct_eq_false.mp hd
    have h₂ := size_of_heap hd
    have hd' : ({ v with _size := s } : prevector N T).is_direct = false :=
      is_direct_eq_false.mpr (by dsimp only; omega)
    refine ⟨hd', ?_⟩
    rw [size_of_heap hd']
    dsimp only
    omega
  · have h₁ := is_direct_eq_true.mp hd
    have h₂ := size_of_direct hd
    have hd' : ({ v with _size := s } : prevector N T).is_direct = true :=
      is_direct_eq_true.mpr (by dsimp only; omega)
    refine ⟨hd', ?_⟩
    rw [size_of_direct hd']
    dsimp only
    omega

/-- `_size` grows by `k` within the capacity: the same storage, `k` more elements. -/
theorem withSize_add {k : ℕ} (hroom : v.size + k ≤ v.capacity) (hbound : v._size + k < 2 ^ 32) :
    ({ v with _size := toSizeType (v._size + k) } : prevector N T).is_direct = v.is_direct ∧
      ({ v with _size := toSizeType (v._size + k) } : prevector N T).size = v.size + k := by
  rw [toSizeType_of_lt hbound]
  -- in the inline buffer the capacity is `N`; on the heap `_size` is past `N` already
  have hside : v._size + k ≤ N ↔ v._size ≤ N := by
    cases hd : v.is_direct
    · have := is_direct_eq_false.mp hd
      omega
    · have := size_of_direct hd
      have := capacity_of_direct hd
      omega
  obtain ⟨hd, hsize⟩ := withSize_same_side hside
  exact ⟨hd, by omega⟩

/-- `_size` goes down by at most the number of elements: the same storage, `k` fewer. -/
theorem withSize_sub {k : ℕ} (hk : k ≤ v.size) (hbound : v._size < 2 ^ 32) :
    ({ v with _size := toSizeType (v._size - k) } : prevector N T).is_direct = v.is_direct ∧
      ({ v with _size := toSizeType (v._size - k) } : prevector N T).size = v.size - k := by
  rw [toSizeType_of_lt (by omega)]
  -- on the heap `_size` stays past `N`, as at most `size` is taken off
  have hside : v._size - k ≤ N ↔ v._size ≤ N := by
    cases hd : v.is_direct
    · have := is_direct_eq_false.mp hd
      have := size_of_heap hd
      omega
    · have := is_direct_eq_true.mp hd
      omega
  obtain ⟨hd, hsize⟩ := withSize_same_side hside
  have := size_le_field_size v
  exact ⟨hd, by omega⟩

/-- A state in the storage of one that keeps the invariant, with a buffer of the same length and
readable elements, keeps it. -/
theorem Inv.of_storage (hv : v.Inv) {w : prevector N T} (hd : w.is_direct = v.is_direct)
    (hdirect : w._direct.length = N) (hcap : w._capacity = v._capacity)
    (hlen : (w.storage w.is_direct).length = (v.storage v.is_direct).length)
    (hsize : w._size < 2 ^ 32) (hsome : w.toList.isSome) : w.Inv := by
  refine ⟨hdirect, hsize, hsome, fun hw => ?_⟩
  have hvh : v.is_direct = false := hd ▸ hw
  obtain ⟨hN, hlenv, -⟩ := hv.heap hvh
  rw [hw, hvh] at hlen
  obtain ⟨l, hl⟩ := Option.isSome_iff_exists.mp hsome
  have hread := Buffer.le_length_of_read hl
  rw [hw] at hread
  refine ⟨hcap ▸ hN, ?_, ?_⟩
  · rw [hcap, ← hlenv]
    exact hlen
  · rw [hcap, ← hlenv]
    exact hread.trans_eq hlen

/-- The last step of every operation: the storage `item_ptr` points into rewritten with as many
slots, and `_size` moved within that storage. -/
theorem Inv.store (hv : v.Inv) {buf : List (Option T)} {w : prevector N T}
    (hw : w = v.store v.is_direct buf) (hbuf : buf.length = (v.storage v.is_direct).length)
    {s : ℕ} (hs : s < 2 ^ 32) (hd : ({ w with _size := s } : prevector N T).is_direct = v.is_direct)
    (hsome : ({ w with _size := s } : prevector N T).toList.isSome) :
    ({ w with _size := s } : prevector N T).Inv := by
  subst hw
  refine Inv.of_storage hv hd (hv.length_direct_store hbuf) (_capacity_store _ _ _) ?_ hs hsome
  rw [hd, storage_withSize, storage_store, hbuf]

theorem toList_store {buf : List (Option T)} {w : prevector N T}
    (hw : w = v.store v.is_direct buf) {s : ℕ}
    (hd : ({ w with _size := s } : prevector N T).is_direct = v.is_direct) :
    ({ w with _size := s } : prevector N T).toList =
      Buffer.read buf ({ w with _size := s } : prevector N T).size := by
  rw [toList, hd, storage_withSize, hw, storage_store]

end Size

/-! ## The operations on the element list -/

section Ops

variable {v : prevector N T} {l : List T}

/-- In a vector of fewer than `2 ^ 31` elements `_size` has room for `N + 1` more. -/
theorem _size_le (hl : v.toList = some l) : v._size ≤ l.length + N + 1 := by
  have hlen := length_toList hl
  cases hd : v.is_direct
  · have := size_of_heap hd
    have := is_direct_eq_false.mp hd
    omega
  · have := size_of_direct hd
    omega

/-- The size an insertion computes, when it fits `size_type`. -/
theorem toSizeType_size_add (hl : v.toList = some l) {k : ℕ} (h : l.length + k < 2 ^ 32) :
    toSizeType (v.size + k) = l.length + k := by
  rw [← length_toList hl]
  exact toSizeType_of_lt h

/-- `grow` leaves room for `new_size` elements. -/
theorem grow_spec (hN : N < 2 ^ 31) (hv : v.Inv) (hl : v.toList = some l) (new_size : ℕ)
    (hnew : l.length ≤ new_size) (hsmall : new_size < 2 ^ 31) :
    ∃ v', v.grow new_size = .ok v' ∧ v'.Inv ∧ v'.toList = some l ∧ new_size ≤ v'.capacity := by
  unfold grow
  split_ifs with hlt
  · have hgrow : toSizeType (new_size + new_size / 2) = new_size + new_size / 2 :=
      toSizeType_of_lt (by omega)
    rw [hgrow]
    obtain ⟨v', hc, hv', hl', hcap⟩ :=
      change_capacity_spec hv hl (new_size + new_size / 2) (by omega) (by omega) (by omega)
    exact ⟨v', hc, hv', hl', by omega⟩
  · exact ⟨v, rfl, hv, hl, by omega⟩

/-- Values written after the elements, counted in `_size`, are appended. -/
theorem fillAt_append (hv : v.Inv) (hl : v.toList = some l) (xs : List T)
    (hroom : l.length + xs.length ≤ v.capacity) (hbound : v._size + xs.length < 2 ^ 32) :
    ∃ w, v.fillAt v.is_direct v.size xs = .ok w ∧
      ({ w with _size := toSizeType (w._size + xs.length) } : prevector N T).Inv ∧
      ({ w with _size := toSizeType (w._size + xs.length) } : prevector N T).toList =
        some (l ++ xs) := by
  have hlen := length_toList hl
  have hstore := hv.length_storage
  obtain ⟨buf, hbuf⟩ : ∃ buf, buf =
      Buffer.write (v.storage v.is_direct) v.size (xs.map some) := ⟨_, rfl⟩
  have hbuflen : buf.length = (v.storage v.is_direct).length := by
    rw [hbuf]
    exact Buffer.length_write (by simp; omega)
  obtain ⟨hd, hsize⟩ := withSize_add (v := v.store v.is_direct buf) (k := xs.length)
    (by rw [size_store, capacity_store]; omega) (by rw [_size_store]; exact hbound)
  rw [is_direct_store] at hd
  rw [size_store] at hsize
  have hread : Buffer.read buf (v.size + xs.length) = some (l ++ xs) := by
    rw [hbuf]
    exact Buffer.read_append hl (by omega)
  have hlist := toList_store rfl hd
  rw [hsize, hread] at hlist
  refine ⟨v.store v.is_direct buf, by rw [hbuf]; exact fillAt_ok (by omega),
    hv.store rfl hbuflen (toSizeType_lt _) hd (by rw [hlist]; rfl), hlist⟩

/-- `push_back` appends. -/
theorem push_back_spec (hN : N < 2 ^ 31) (hv : v.Inv) (hl : v.toList = some l) (value : T)
    (hsmall : l.length + 1 < 2 ^ 31) :
    ∃ v', v.push_back value = .ok v' ∧ v'.Inv ∧ v'.toList = some (l ++ [value]) := by
  have hnew := toSizeType_size_add hl (k := 1) (by omega)
  obtain ⟨v₁, hgrow, hv₁, hl₁, hcap₁⟩ := grow_spec hN hv hl (l.length + 1) (by omega) hsmall
  obtain ⟨w, hfill, hinv, hlist⟩ := fillAt_append hv₁ hl₁ [value] (by simpa using hcap₁)
    (by have := _size_le hl₁; simp only [List.length_singleton]; omega)
  refine ⟨_, ?_, hinv, hlist⟩
  simp only [push_back, hnew, hgrow, bind, Except.bind, hfill, pure, Except.pure,
    List.length_singleton]

/-- `erase(first, last)` removes the elements between. -/
theorem erase_spec (hv : v.Inv) (hl : v.toList = some l) (first last : ℕ) (hfl : first ≤ last)
    (hlast : last ≤ l.length) :
    ∃ v', v.erase first last = .ok v' ∧ v'.Inv ∧
      v'.toList = some (l.take first ++ l.drop last) := by
  have hlen := length_toList hl
  have hstore := hv.length_storage
  have hsize := hv.size_le_capacity
  set buf := Buffer.move (v.storage v.is_direct) first last (v.size - last) with hbuf
  have hbuflen : buf.length = (v.storage v.is_direct).length := Buffer.length_move (by omega)
  obtain ⟨hd, hsize'⟩ := withSize_sub (v := v.store v.is_direct buf) (k := last - first)
    (by rw [size_store]; omega) (by rw [_size_store]; exact hv.size_lt)
  rw [is_direct_store] at hd
  rw [size_store] at hsize'
  have hlist := toList_store rfl hd
  rw [hsize', Buffer.read_erase hl hfl (by omega)] at hlist
  refine ⟨_, ?_, hv.store rfl hbuflen (toSizeType_lt _) hd (by rw [hlist]; rfl), hlist⟩
  simp only [erase]
  rw [memmoveAt_ok (by rw [storage_withSize]; omega) (by rw [storage_withSize]; omega),
    storage_withSize, store_withSize, _size_store]

/-- On a non-empty vector `pop_back` is `erase(end() - 1, end())` at positions. -/
theorem pop_back_eq_erase (hne : 0 < v.size) : v.pop_back = v.erase (v.size - 1) v.size := by
  have h := size_le_field_size v
  have hk : v.size - (v.size - 1) = 1 := by omega
  simp only [pop_back, erase, hk, Nat.sub_self]
  rw [show v._size + (2 ^ 32 - 1) = v._size - 1 + 2 ^ 32 by omega, toSizeType, toSizeType,
    Nat.add_mod_right]

/-- `pop_back` drops the last element. -/
theorem pop_back_spec (hv : v.Inv) (hl : v.toList = some l) (hne : 0 < l.length) :
    ∃ v', v.pop_back = .ok v' ∧ v'.Inv ∧ v'.toList = some l.dropLast := by
  have hlen := length_toList hl
  obtain ⟨v', he, hv', hl'⟩ := erase_spec hv hl (v.size - 1) v.size (Nat.sub_le _ _) hlen.ge
  refine ⟨v', by rw [pop_back_eq_erase (by omega)]; exact he, hv', ?_⟩
  rw [hl', ← hlen, List.drop_length, List.append_nil, List.dropLast_eq_take]

/-- The middle of an insertion: the tail moved up by the number of values, `_size` counting them,
and the values written at `pos`, in the storage `item_ptr` pointed into before. -/
theorem shiftUp_fill (hv : v.Inv) (hl : v.toList = some l) {pos : ℕ} (hpos : pos ≤ l.length)
    (values : List T) (hroom : l.length + values.length ≤ v.capacity)
    (hbound : v._size + values.length < 2 ^ 32) :
    ∃ w, v.memmoveAt v.is_direct (pos + values.length) pos (v.size - pos) = .ok w ∧
      ({ w with _size := toSizeType (w._size + values.length) } : prevector N T).is_direct =
        v.is_direct ∧
      ∃ v', ({ w with _size := toSizeType (w._size + values.length) } : prevector N T).fillAt
          v.is_direct pos values = .ok v' ∧ v'.Inv ∧
        v'.toList = some (l.take pos ++ values ++ l.drop pos) := by
  have hlen := length_toList hl
  have hstore := hv.length_storage
  obtain ⟨buf, hbuf⟩ : ∃ buf, buf =
      Buffer.move (v.storage v.is_direct) (pos + values.length) pos (v.size - pos) := ⟨_, rfl⟩
  have hbuflen : buf.length = (v.storage v.is_direct).length := by
    rw [hbuf]
    exact Buffer.length_move (by omega)
  obtain ⟨hd, hsize⟩ := withSize_add (v := v.store v.is_direct buf) (k := values.length)
    (by rw [size_store, capacity_store]; omega) (by rw [_size_store]; exact hbound)
  rw [is_direct_store] at hd
  rw [size_store] at hsize
  refine ⟨v.store v.is_direct buf, by rw [hbuf]; exact memmoveAt_ok (by omega) (by omega), hd, ?_⟩
  -- the values go into the moved buffer; `_size` is the one counted before the write
  obtain ⟨buf', hbuf'⟩ : ∃ buf', buf' = Buffer.write buf pos (values.map some) := ⟨_, rfl⟩
  have hbuf'len : buf'.length = (v.storage v.is_direct).length := by
    rw [hbuf', Buffer.length_write (by simp; omega), hbuflen]
  have hd' : ({ v.store v.is_direct buf' with
      _size := toSizeType ((v.store v.is_direct buf)._size + values.length) } :
        prevector N T).is_direct = v.is_direct := hd
  have hread : Buffer.read buf' (v.size + values.length) =
      some (l.take pos ++ values ++ l.drop pos) := by
    rw [hbuf', hbuf]
    exact Buffer.read_insert hl (hlen ▸ hpos) (by omega)
  have hlist := toList_store rfl hd'
  rw [show ({ v.store v.is_direct buf' with
      _size := toSizeType ((v.store v.is_direct buf)._size + values.length) } :
        prevector N T).size = v.size + values.length from hsize, hread] at hlist
  refine ⟨_, ?_, hv.store rfl hbuf'len (toSizeType_lt _) hd' (by rw [hlist]; rfl), hlist⟩
  rw [fillAt_ok (by rw [storage_withSize, storage_store]; omega), storage_withSize,
    storage_store, store_withSize, store_store, hbuf']

/-- At a position among the elements the tail length does not wrap. -/
theorem subSizeType_size {v : prevector N T} {l : List T} (hl : v.toList = some l) {pos : ℕ}
    (hpos : pos ≤ l.length) (hlen : l.length < 2 ^ 32) : subSizeType v.size pos = v.size - pos := by
  rw [← length_toList hl]
  exact subSizeType_of_le hpos hlen

/-- `insert(pos, first, last)` at a position among the elements inserts the values there. -/
theorem insertRange_spec (hN : N < 2 ^ 31) (hv : v.Inv) (hl : v.toList = some l) {pos : ℕ}
    (hpos : pos ≤ l.length) (values : List T) (hsmall : l.length + values.length < 2 ^ 31) :
    ∃ v', v.insertRange pos values = .ok v' ∧ v'.Inv ∧
      v'.toList = some (l.take pos ++ values ++ l.drop pos) := by
  have hnew := toSizeType_size_add hl (k := values.length) (by omega)
  obtain ⟨v₁, hgrow, hv₁, hl₁, hcap₁⟩ := grow_spec hN hv hl _ (Nat.le_add_right _ _) hsmall
  obtain ⟨w, hmove, -, v', hfill, hv', hl'⟩ := shiftUp_fill hv₁ hl₁ hpos values hcap₁
    (by have := _size_le hl₁; omega)
  have hsub := subSizeType_size hl₁ hpos (by omega)
  refine ⟨v', ?_, hv', hl'⟩
  simp only [insertRange, hnew, hgrow, bind, Except.bind, hsub, hmove, hfill]

/-- `insert(pos, value)` inserts the value. -/
theorem insert_spec (hN : N < 2 ^ 31) (hv : v.Inv) (hl : v.toList = some l) {pos : ℕ}
    (hpos : pos ≤ l.length) (value : T) (hsmall : l.length + 1 < 2 ^ 31) :
    ∃ v', v.insert pos value = .ok v' ∧ v'.Inv ∧
      v'.toList = some (l.take pos ++ [value] ++ l.drop pos) :=
  insertRange_spec hN hv hl hpos [value] hsmall

/-- `insert(pos, count, value)` inserts `count` copies: taking `item_ptr(p)` after `_size` has
grown finds the same storage. -/
theorem insertCount_spec (hN : N < 2 ^ 31) (hv : v.Inv) (hl : v.toList = some l) {pos : ℕ}
    (hpos : pos ≤ l.length) (count : ℕ) (value : T) (hsmall : l.length + count < 2 ^ 31) :
    ∃ v', v.insertCount pos count value = .ok v' ∧ v'.Inv ∧
      v'.toList = some (l.take pos ++ List.replicate count value ++ l.drop pos) := by
  have hnew := toSizeType_size_add hl (k := count) (by omega)
  obtain ⟨v₁, hgrow, hv₁, hl₁, hcap₁⟩ := grow_spec hN hv hl _ (Nat.le_add_right _ _) hsmall
  obtain ⟨w, hmove, hd, v', hfill, hv', hl'⟩ := shiftUp_fill hv₁ hl₁ hpos
    (List.replicate count value) (by rw [List.length_replicate]; exact hcap₁)
    (by have := _size_le hl₁; rw [List.length_replicate]; omega)
  rw [List.length_replicate] at hmove hd hfill
  have hsub := subSizeType_size hl₁ hpos (by omega)
  refine ⟨v', ?_, hv', hl'⟩
  simp only [insertCount, hnew, hgrow, bind, Except.bind, hsub, hmove, hd, hfill]

/-- `insert(pos, count, value)` takes `item_ptr(p)` again after `_size` has grown, where
`insert(pos, first, last)` keeps the pointer it took before. Within the bounds both point into the
same storage, and the two insertions agree. -/
theorem insertCount_eq_insertRange (hN : N < 2 ^ 31) (hv : v.Inv) (hl : v.toList = some l)
    (pos count : ℕ) (value : T) (hsmall : l.length + count < 2 ^ 31) :
    v.insertCount pos count value = v.insertRange pos (List.replicate count value) := by
  have hnew := toSizeType_size_add hl (k := count) (by omega)
  obtain ⟨v₁, hgrow, -, hl₁, hcap₁⟩ := grow_spec hN hv hl _ (Nat.le_add_right _ _) hsmall
  have hlen₁ := length_toList hl₁
  have hsize₁ := _size_le hl₁
  simp only [insertCount, insertRange, List.length_replicate, hnew, hgrow, except_ok_bind]
  rcases hm : v₁.memmoveAt v₁.is_direct (pos + count) pos (subSizeType v₁.size pos) with e | w
  · rfl
  · -- the move keeps the storage, so the grown `_size` keeps the mode
    have hw := eq_of_memmoveAt hm
    obtain ⟨hd, -⟩ := withSize_add (v := w) (k := count)
      (by rw [hw, size_store, capacity_store]; omega) (by rw [hw, _size_store]; omega)
    rw [except_ok_bind, except_ok_bind, hd, hw, is_direct_store]

theorem insertCount_eq_insertRange_empty :
    (empty : prevector 2 UInt8).insertCount 0 3 7 = empty.insertRange 0 (List.replicate 3 7) :=
  insertCount_eq_insertRange (by norm_num) Inv_empty toList_empty 0 3 7 (by norm_num)

/-- `reserve(new_capacity)`: room for `new_capacity` elements, the elements kept. -/
theorem reserve_spec (hv : v.Inv) (hl : v.toList = some l) (new_capacity : ℕ)
    (hcap : new_capacity < 2 ^ 32) (hsize : l.length + N + 1 < 2 ^ 32) :
    ∃ v', v.reserve new_capacity = .ok v' ∧ v'.Inv ∧ v'.toList = some l ∧
      v'.capacity = max v.capacity new_capacity := by
  have hle := hv.le_capacity
  unfold reserve
  split_ifs with hgt
  · have hroom : l.length ≤ new_capacity := by
      have := hv.size_le_capacity
      have := length_toList hl
      omega
    obtain ⟨v', hc, hv', hl', hcap'⟩ := change_capacity_spec hv hl new_capacity hroom hcap hsize
    exact ⟨v', hc, hv', hl', by omega⟩
  · exact ⟨v, rfl, hv, hl, by omega⟩

/-- `resize` and `assign` take the step of `reserve` before writing, with their continuation in
both branches. -/
theorem reserve_bind (v : prevector N T) (new_capacity : ℕ)
    (f : prevector N T → Except String (prevector N T)) :
    (if v.capacity < new_capacity then v.change_capacity new_capacity >>= f else pure v >>= f) =
      v.reserve new_capacity >>= f := by
  unfold reserve
  split_ifs <;> rfl

/-- `shrink_to_fit` keeps the elements. -/
theorem shrink_to_fit_spec (hN : N < 2 ^ 31) (hv : v.Inv) (hl : v.toList = some l)
    (hsmall : l.length < 2 ^ 31) :
    ∃ v', v.shrink_to_fit = .ok v' ∧ v'.Inv ∧ v'.toList = some l := by
  have hlen := length_toList hl
  obtain ⟨v', hc, hv', hl', -⟩ :=
    change_capacity_spec hv hl v.size hlen.le (by omega) (by omega)
  exact ⟨v', hc, hv', hl'⟩

/-- `erase` keeps the capacity, and may leave a vector of at most `N` elements on the heap;
`shrink_to_fit` moves it into direct storage. -/
theorem shrink_to_fit_direct (hN : N < 2 ^ 31) (hv : v.Inv) (hl : v.toList = some l)
    (hsmall : l.length ≤ N) :
    ∃ v', v.shrink_to_fit = .ok v' ∧ v'.is_direct = true ∧ v'.toList = some l := by
  have hlen := length_toList hl
  obtain ⟨v', hc, hv', hl', hcap'⟩ :=
    change_capacity_spec hv hl v.size hlen.le (by omega) (by omega)
  refine ⟨v', hc, ?_, hl'⟩
  -- a heap array has more than `N` slots, and the capacity asked is at most `N`
  cases hd : v'.is_direct
  · have := (hv'.heap hd).1
    rw [capacity_of_heap hd] at hcap'
    omega
  · rfl

theorem shrink_to_fit_direct_heap :
    ∃ v', (⟨5, [none, none], 4, [some 1, some 2, none, none]⟩ : prevector 2 UInt8).shrink_to_fit =
      .ok v' ∧ v'.is_direct = true ∧ v'.toList = some [1, 2] :=
  shrink_to_fit_direct (by norm_num) ⟨rfl, by decide, by decide, fun _ => ⟨by decide, rfl, by decide⟩⟩
    (by decide) (by decide)

/-- The last steps of `assign` and of the constructors: `_size` counting the values, then the
values written from the start of a vector with no element. -/
theorem fill_from_empty (hv : v.Inv) (hl : v.toList = some []) (values : List T)
    (hroom : values.length ≤ v.capacity) (hbound : v._size + values.length < 2 ^ 32) :
    ∃ v', ({ v with _size := toSizeType (v._size + values.length) } : prevector N T).fillAt
        ({ v with _size := toSizeType (v._size + values.length) } : prevector N T).is_direct
        0 values = .ok v' ∧
      v'.Inv ∧ v'.toList = some values ∧ v'.capacity = v.capacity := by
  have hsz : v.size = 0 := (length_toList hl).symm
  have hstore := hv.length_storage
  obtain ⟨hd, hsize⟩ := withSize_add (v := v) (k := values.length) (by omega) hbound
  obtain ⟨buf, hbuf⟩ : ∃ buf, buf = Buffer.write (v.storage v.is_direct) 0 (values.map some) :=
    ⟨_, rfl⟩
  have hbuflen : buf.length = (v.storage v.is_direct).length := by
    rw [hbuf]
    exact Buffer.length_write (by simp; omega)
  have hd' : ({ v.store v.is_direct buf with _size := toSizeType (v._size + values.length) } :
      prevector N T).is_direct = v.is_direct := hd
  have hread : Buffer.read buf (0 + values.length) = some values := by
    rw [hbuf, Buffer.read_append (Buffer.read_zero _) (by omega),
      List.nil_append]
  have hlist := toList_store rfl hd'
  rw [show ({ v.store v.is_direct buf with _size := toSizeType (v._size + values.length) } :
      prevector N T).size = v.size + values.length from hsize, hsz, hread] at hlist
  refine ⟨_, ?_, hv.store rfl hbuflen (toSizeType_lt _) hd' (by rw [hlist]; rfl), hlist, ?_⟩
  · rw [hd, fillAt_ok (by rw [storage_withSize]; omega), storage_withSize, store_withSize, hbuf]
  · exact capacity_eq hd (_capacity_store _ _ _)

variable [Inhabited T]

/-- `resize(new_size)`: the first `new_size` elements, then `T{}` up to `new_size`. -/
theorem resize_spec (hN : N < 2 ^ 31) (hv : v.Inv) (hl : v.toList = some l) (new_size : ℕ)
    (hsmall : new_size < 2 ^ 31) (hlsmall : l.length < 2 ^ 31) :
    ∃ v', v.resize new_size = .ok v' ∧ v'.Inv ∧
      v'.toList = some (l.take new_size ++ List.replicate (new_size - l.length) default) := by
  have hlen := length_toList hl
  simp only [resize]
  by_cases heq : v.size = new_size
  · refine ⟨v, if_pos heq, hv, ?_⟩
    rw [hl, List.take_of_length_le (by omega), show new_size - l.length = 0 by omega,
      List.replicate_zero, List.append_nil]
  rw [if_neg heq]
  by_cases hgt : v.size > new_size
  · obtain ⟨v', he, hv', hl'⟩ := erase_spec hv hl new_size v.size hgt.le hlen.ge
    refine ⟨v', by rw [if_pos hgt]; exact he, hv', ?_⟩
    rw [hl', ← hlen, List.drop_length, show new_size - l.length = 0 by omega,
      List.replicate_zero]
  rw [if_neg hgt]
  -- room first, then `T{}` written after the elements
  obtain ⟨v₁, hr, hv₁, hl₁, hcap₁⟩ := reserve_spec hv hl new_size (by omega) (by omega)
  obtain ⟨w, hfill, hinv, hlist⟩ := fillAt_append hv₁ hl₁
    (List.replicate (new_size - l.length) default) (by rw [List.length_replicate]; omega)
    (by have := _size_le hl₁; rw [List.length_replicate]; omega)
  rw [← length_toList hl₁] at hfill
  rw [List.length_replicate] at hinv hlist
  refine ⟨_, ?_, hinv, by rw [hlist, List.take_of_length_le (by omega)]⟩
  rw [reserve_bind, hr, except_ok_bind, ← hlen, hfill, except_ok_bind]
  rfl

/-- `clear` leaves no element. -/
theorem clear_spec (hN : N < 2 ^ 31) (hv : v.Inv) (hl : v.toList = some l)
    (hlsmall : l.length < 2 ^ 31) :
    ∃ v', v.clear = .ok v' ∧ v'.Inv ∧ v'.toList = some [] := by
  obtain ⟨v', hr, hv', hl'⟩ := resize_spec hN hv hl 0 (by norm_num) hlsmall
  refine ⟨v', hr, hv', ?_⟩
  rw [hl', List.take_zero, Nat.zero_sub, List.replicate_zero, List.append_nil]

/-- `assign(first, last)` replaces the elements by the values. -/
theorem assignRange_spec (hN : N < 2 ^ 31) (hv : v.Inv) (hl : v.toList = some l)
    (hlsmall : l.length < 2 ^ 31) (values : List T) (hsmall : values.length < 2 ^ 31) :
    ∃ v', v.assignRange values = .ok v' ∧ v'.Inv ∧ v'.toList = some values := by
  have hn : toSizeType values.length = values.length := toSizeType_of_lt (by omega)
  obtain ⟨v₁, hc, hv₁, hl₁⟩ := clear_spec hN hv hl hlsmall
  obtain ⟨v₂, hr, hv₂, hl₂, hcap₂⟩ :=
    reserve_spec hv₁ hl₁ values.length (by omega) (by rw [List.length_nil]; omega)
  obtain ⟨v', hfill, hv', hl', -⟩ := fill_from_empty hv₂ hl₂ values (by omega)
    (by have := _size_le hl₂; rw [List.length_nil] at this; omega)
  refine ⟨v', ?_, hv', hl'⟩
  simp only [assignRange, hn, hc, except_ok_bind]
  rw [reserve_bind, hr, except_ok_bind]
  exact hfill

/-- `assign(n, val)`: `n` copies of `val`. -/
theorem assign_spec (hN : N < 2 ^ 31) (hv : v.Inv) (hl : v.toList = some l)
    (hlsmall : l.length < 2 ^ 31) (n : ℕ) (val : T) (hsmall : n < 2 ^ 31) :
    ∃ v', v.assign n val = .ok v' ∧ v'.Inv ∧ v'.toList = some (List.replicate n val) :=
  assignRange_spec hN hv hl hlsmall _ (by rw [List.length_replicate]; exact hsmall)

end Ops

/-! ## Construction -/

section Construction

/-- The constructors: the values, in a heap array of exactly their number when they do not fit
in direct storage. -/
theorem ofValues_spec (values : List T) (hsmall : values.length + N + 1 < 2 ^ 32) :
    ∃ v, (ofValues values : Except String (prevector N T)) = .ok v ∧ v.Inv ∧
      v.toList = some values ∧ v.capacity = max N values.length := by
  have hn : toSizeType values.length = values.length := toSizeType_of_lt (by omega)
  obtain ⟨v₁, hc, hv₁, hl₁, hcap₁⟩ := change_capacity_spec (@Inv_empty N T) toList_empty
    values.length (Nat.zero_le _) (by omega) (by rw [List.length_nil]; omega)
  obtain ⟨v', hfill, hv', hl', hcap'⟩ := fill_from_empty hv₁ hl₁ values (by omega)
    (by have := _size_le hl₁; rw [List.length_nil] at this; omega)
  refine ⟨v', ?_, hv', hl', hcap'.trans hcap₁⟩
  simp only [ofValues, hn, hc, bind, Except.bind, hfill]

/-- A vector whose elements are readable gives them to the copy constructor and assignment. -/
theorem elements_eq {v : prevector N T} {l : List T} (hl : v.toList = some l) :
    v.elements = .ok l := by
  rw [elements, hl]

end Construction

/-! ## Growth that wraps

The growth `new_size + (new_size >> 1)` is computed in `size_type`. From about `2 ^ 32 / 1.5`
elements on it wraps, below the size it is meant to make room for; `change_capacity` then shrinks
the heap array and the new element is written past its end. -/

section Wrap

/-- A full vector whose growth wraps below `size() + 1` but not into direct storage: `push_back`
reallocates the heap array smaller and writes past its end. -/
theorem push_back_of_wrap {v : prevector N T} {l : List T} (hl : v.toList = some l)
    (hfull : v.capacity = l.length) (hsize : l.length + 1 < 2 ^ 32)
    (hwrap : toSizeType (l.length + 1 + (l.length + 1) / 2) < l.length + 1)
    (hheap : N < toSizeType (l.length + 1 + (l.length + 1) / 2)) (value : T) :
    v.push_back value = .error "write out of bounds" := by
  have hlen := length_toList hl
  -- a direct vector has capacity `N`, below the growth
  have hd : v.is_direct = false := by
    cases hd : v.is_direct
    · rfl
    · have := capacity_of_direct hd
      omega
  obtain ⟨c, hc⟩ : ∃ c, c = toSizeType (l.length + 1 + (l.length + 1) / 2) := ⟨_, rfl⟩
  rw [← hc] at hwrap hheap
  have hnew := toSizeType_size_add hl (k := 1) hsize
  -- `realloc` of the heap array to `c` slots
  have hgrow : v.grow (l.length + 1) =
      .ok { v with _indirect := Buffer.resize v._indirect c, _capacity := c } := by
    rw [grow, if_pos (by omega), ← hc, change_capacity, if_neg (by omega), hd]
    rfl
  have hd' : ({ v with _indirect := Buffer.resize v._indirect c, _capacity := c } :
      prevector N T).is_direct = false := hd
  have hsize' : ({ v with _indirect := Buffer.resize v._indirect c, _capacity := c } :
      prevector N T).size = l.length := by
    rw [size_of_heap hd', hlen, size_of_heap hd]
  have hfill : ({ v with _indirect := Buffer.resize v._indirect c, _capacity := c } :
      prevector N T).fillAt false l.length [value] = .error "write out of bounds" := by
    apply if_neg
    show ¬l.length + [value].length ≤ (Buffer.resize v._indirect c).length
    rw [Buffer.length_resize, List.length_singleton]
    omega
  rw [push_back, hnew, hgrow, except_ok_bind, hd', hsize', hfill]
  rfl

/-- A direct vector whose growth for the values wraps below the new size, but not into direct
storage: `insert(end(), first, last)` moves the elements into a heap array of fewer slots than
the values need, and `ptr + count` lies past its end. -/
theorem insertRange_of_wrap {v : prevector N T} {l : List T} (hv : v.Inv) (hl : v.toList = some l)
    (hd : v.is_direct = true) (hN : N < 2 ^ 31) {values : List T}
    (hsize : l.length + values.length < 2 ^ 32)
    (hwrap : toSizeType (l.length + values.length + (l.length + values.length) / 2) <
      l.length + values.length)
    (hheap : N < toSizeType (l.length + values.length + (l.length + values.length) / 2)) :
    v.insertRange l.length values = .error "memmove out of bounds" := by
  have hlen := length_toList hl
  have hsz := size_of_direct hd
  have hdirect := hv.length_direct
  have hsmall := is_direct_eq_true.mp hd
  obtain ⟨c, hc⟩ : ∃ c, c = toSizeType (l.length + values.length +
      (l.length + values.length) / 2) := ⟨_, rfl⟩
  rw [← hc] at hwrap hheap
  have hnew := toSizeType_size_add hl (k := values.length) hsize
  -- `change_capacity` copies the elements into a new heap array of `c` slots
  obtain ⟨w, hw⟩ : ∃ w : prevector N T, w = { v with
      _indirect := Buffer.write (Buffer.uninit c) 0 (v._direct.take v.size), _capacity := c,
      _size := toSizeType (v._size + (N + 1)) } := ⟨_, rfl⟩
  have hgrow : v.grow (l.length + values.length) = .ok w := by
    rw [grow, if_pos (by rw [capacity_of_direct hd]; omega), ← hc, change_capacity,
      if_neg (by omega), hd, Bool.not_true, if_neg Bool.false_ne_true,
      if_pos ⟨by omega, by omega⟩, hw]
  have hw_size : w._size = v._size + (N + 1) := by
    rw [hw]
    exact toSizeType_of_lt (by omega)
  have hd' : w.is_direct = false := is_direct_eq_false.mpr (by omega)
  have hsize' : w.size = l.length := by
    rw [size_of_heap hd', hw_size]
    omega
  have hstorage : (w.storage false).length = c := by
    rw [hw]
    exact (Buffer.length_write (by simp; omega)).trans (Buffer.length_uninit c)
  have hmove : w.memmoveAt false (l.length + values.length) l.length 0 =
      .error "memmove out of bounds" := by
    rw [memmoveAt, if_neg (by rw [hstorage]; omega)]
  rw [insertRange, hnew, hgrow, except_ok_bind, hd', hsize', subSizeType_of_le le_rfl (by omega),
    Nat.sub_self]
  dsimp only
  rw [hmove]
  rfl

/-- `prevector<28, uint8_t>(3 * 2 ^ 30, 0)` holds its elements, and `push_back(0)` on it writes
out of bounds. -/
theorem push_back_wraps :
    ∃ v : prevector 28 UInt8, ofValues (List.replicate (3 * 2 ^ 30) 0) = .ok v ∧
      v.toList = some (List.replicate (3 * 2 ^ 30) 0) ∧
      v.push_back 0 = .error "write out of bounds" := by
  obtain ⟨v, hv₀, -, hl, hcap⟩ := ofValues_spec (N := 28) (List.replicate (3 * 2 ^ 30) (0 : UInt8))
    (by rw [List.length_replicate]; norm_num)
  refine ⟨v, hv₀, hl, push_back_of_wrap hl ?_ ?_ ?_ ?_ 0⟩ <;> rw [List.length_replicate]
  · rw [hcap, List.length_replicate]
    decide
  · decide
  · decide
  · decide

/-- `pop_back` on an empty vector wraps `_size` to `2 ^ 32 - 1`: the vector then reads as one of
`2 ^ 32 - N - 2` elements in a heap array of no slot. -/
theorem pop_back_empty (hN : N + 1 < 2 ^ 32) :
    ∃ v, (empty : prevector N T).pop_back = .ok v ∧ v.size = 2 ^ 32 - N - 2 ∧ ¬v.Inv := by
  have hsize : toSizeType ((empty : prevector N T)._size + (2 ^ 32 - 1)) = 2 ^ 32 - 1 := by
    norm_num [toSizeType, empty]
  simp only [pop_back, is_direct_empty, hsize]
  rw [size_of_direct is_direct_empty, memmoveAt_ok (Nat.zero_le _) (Nat.zero_le _)]
  -- `_size` is now past `N`: the vector reads its elements from the heap array
  have hd : (⟨2 ^ 32 - 1, (empty : prevector N T)._direct, (empty : prevector N T)._capacity,
      (empty : prevector N T)._indirect⟩ : prevector N T).is_direct = false :=
    is_direct_eq_false.mpr (by dsimp only; omega)
  refine ⟨_, rfl, ?_, fun hv => ?_⟩
  · rw [size_store, size_of_heap hd]
    dsimp only
    omega
  · have := (hv.heap (by rw [is_direct_store]; exact hd)).1
    rw [_capacity_store] at this
    exact absurd this (Nat.not_lt_zero N)

example :
    ∃ v, (empty : prevector 28 UInt8).pop_back = .ok v ∧ v.size = 2 ^ 32 - 28 - 2 ∧ ¬v.Inv :=
  pop_back_empty (by norm_num)

end Wrap

/-! ## Sequences of operations

What a `prevector` is for is a `std::vector`. `Op.apply` is what an operation does to the elements
of a `std::vector`, and `Op.Valid` its precondition (a position among the elements, a non-empty
vector for `pop_back`) together with the bound on sizes below which `prevector` is one. A vector
that `Holds` its elements keeps doing so through any sequence of valid operations (`run_spec`),
one operation at a time (`exec_spec`). -/

section Run

/-- The operations on one vector. -/
inductive Op (T : Type) where
  | push_back (value : T)
  | pop_back
  | insert (pos : ℕ) (value : T)
  | insertCount (pos count : ℕ) (value : T)
  | insertRange (pos : ℕ) (values : List T)
  | erase (first last : ℕ)
  | resize (new_size : ℕ)
  | reserve (new_capacity : ℕ)
  | shrink_to_fit
  | clear
  | assign (n : ℕ) (val : T)
  | assignRange (values : List T)
  deriving Repr

namespace Op

/-- The precondition of the operation on the elements `l`, with sizes below `2 ^ 31`. -/
def Valid : Op T → List T → Prop
  | push_back _, l => l.length + 1 < 2 ^ 31
  | pop_back, l => 0 < l.length
  | insert pos _, l => pos ≤ l.length ∧ l.length + 1 < 2 ^ 31
  | insertCount pos count _, l => pos ≤ l.length ∧ l.length + count < 2 ^ 31
  | insertRange pos values, l => pos ≤ l.length ∧ l.length + values.length < 2 ^ 31
  | erase first last, l => first ≤ last ∧ last ≤ l.length
  | resize new_size, _ => new_size < 2 ^ 31
  | reserve new_capacity, _ => new_capacity < 2 ^ 32
  | shrink_to_fit, _ => True
  | clear, _ => True
  | assign n _, _ => n < 2 ^ 31
  | assignRange values, _ => values.length < 2 ^ 31

instance decidableValid : (op : Op T) → (l : List T) → Decidable (op.Valid l)
  | push_back _, l => inferInstanceAs (Decidable (l.length + 1 < 2 ^ 31))
  | pop_back, l => inferInstanceAs (Decidable (0 < l.length))
  | insert pos _, l => inferInstanceAs (Decidable (pos ≤ l.length ∧ l.length + 1 < 2 ^ 31))
  | insertCount pos count _, l =>
    inferInstanceAs (Decidable (pos ≤ l.length ∧ l.length + count < 2 ^ 31))
  | insertRange pos values, l =>
    inferInstanceAs (Decidable (pos ≤ l.length ∧ l.length + values.length < 2 ^ 31))
  | erase first last, l => inferInstanceAs (Decidable (first ≤ last ∧ last ≤ l.length))
  | resize new_size, _ => inferInstanceAs (Decidable (new_size < 2 ^ 31))
  | reserve new_capacity, _ => inferInstanceAs (Decidable (new_capacity < 2 ^ 32))
  | shrink_to_fit, _ => inferInstanceAs (Decidable True)
  | clear, _ => inferInstanceAs (Decidable True)
  | assign n _, _ => inferInstanceAs (Decidable (n < 2 ^ 31))
  | assignRange values, _ => inferInstanceAs (Decidable (values.length < 2 ^ 31))

variable [Inhabited T]

/-- What the operation does to the elements of a `std::vector`. -/
def apply : Op T → List T → List T
  | push_back value, l => l ++ [value]
  | pop_back, l => l.dropLast
  | insert pos value, l => l.take pos ++ [value] ++ l.drop pos
  | insertCount pos count value, l => l.take pos ++ List.replicate count value ++ l.drop pos
  | insertRange pos values, l => l.take pos ++ values ++ l.drop pos
  | erase first last, l => l.take first ++ l.drop last
  | resize new_size, l => l.take new_size ++ List.replicate (new_size - l.length) default
  | reserve _, l => l
  | shrink_to_fit, l => l
  | clear, _ => []
  | assign n val, _ => List.replicate n val
  | assignRange values, _ => values

/-- A valid operation leaves fewer than `2 ^ 31` elements. -/
theorem length_apply_lt {op : Op T} {l : List T} (hl : l.length < 2 ^ 31) (hop : op.Valid l) :
    (op.apply l).length < 2 ^ 31 := by
  cases op <;> simp only [Valid] at hop <;>
    simp only [apply, List.length_append, List.length_take, List.length_drop,
      List.length_replicate, List.length_dropLast, List.length_singleton, List.length_nil] <;>
    omega

end Op

/-- `v` is a `std::vector` of the elements `l`: it keeps its invariant, holds `l`, and `l` has fewer
than `2 ^ 31` elements. -/
structure Holds (v : prevector N T) (l : List T) : Prop where
  inv : v.Inv
  toList_eq : v.toList = some l
  length_lt : l.length < 2 ^ 31

theorem Holds_empty : (empty : prevector N T).Holds [] :=
  ⟨Inv_empty, toList_empty, by norm_num⟩

variable [Inhabited T]

/-- The operation on a `prevector`. -/
def exec (v : prevector N T) : Op T → Except String (prevector N T)
  | .push_back value => v.push_back value
  | .pop_back => v.pop_back
  | .insert pos value => v.insert pos value
  | .insertCount pos count value => v.insertCount pos count value
  | .insertRange pos values => v.insertRange pos values
  | .erase first last => v.erase first last
  | .resize new_size => v.resize new_size
  | .reserve new_capacity => v.reserve new_capacity
  | .shrink_to_fit => v.shrink_to_fit
  | .clear => v.clear
  | .assign n val => v.assign n val
  | .assignRange values => v.assignRange values

/-- The operations one after the other, up to the first error. -/
def run (v : prevector N T) (ops : List (Op T)) : Except String (prevector N T) :=
  ops.foldlM exec v

/-- The step lemma: a valid operation on a vector that holds `l` succeeds, and the vector then
holds what the operation makes of `l` in a `std::vector`. -/
theorem exec_spec (hN : N < 2 ^ 31) {v : prevector N T} {l : List T} (h : v.Holds l) {op : Op T}
    (hop : op.Valid l) : ∃ v', v.exec op = .ok v' ∧ v'.Holds (op.apply l) := by
  have hlen := Op.length_apply_lt h.length_lt hop
  -- each operation's spec gives the state and its elements; the bound is `length_apply_lt`
  suffices ∃ v', v.exec op = .ok v' ∧ v'.Inv ∧ v'.toList = some (op.apply l) by
    obtain ⟨v', he, hv', hl'⟩ := this
    exact ⟨v', he, hv', hl', hlen⟩
  obtain ⟨hv, hl, hsmall⟩ := h
  cases op with
  | push_back value => exact push_back_spec hN hv hl value hop
  | pop_back => exact pop_back_spec hv hl hop
  | insert pos value => exact insert_spec hN hv hl hop.1 value hop.2
  | insertCount pos count value => exact insertCount_spec hN hv hl hop.1 count value hop.2
  | insertRange pos values => exact insertRange_spec hN hv hl hop.1 values hop.2
  | erase first last => exact erase_spec hv hl first last hop.1 hop.2
  | resize new_size => exact resize_spec hN hv hl new_size hop hsmall
  | reserve new_capacity =>
    obtain ⟨v', he, hv', hl', -⟩ := reserve_spec hv hl new_capacity hop (by omega)
    exact ⟨v', he, hv', hl'⟩
  | shrink_to_fit => exact shrink_to_fit_spec hN hv hl hsmall
  | clear => exact clear_spec hN hv hl hsmall
  | assign n val => exact assign_spec hN hv hl hsmall n val hop
  | assignRange values => exact assignRange_spec hN hv hl hsmall values hop

/-- A sequence of operations each valid on the elements the ones before it leave. -/
abbrev RunValid (l : List T) (ops : List (Op T)) : Prop :=
  FoldPre (fun l (op : Op T) => op.apply l) (fun l op => op.Valid l) l ops

/-- The run lemma: a sequence of valid operations succeeds, and leaves a vector that holds what the
same operations leave in a `std::vector`. -/
theorem run_spec (hN : N < 2 ^ 31) {v : prevector N T} {l : List T} (h : v.Holds l)
    {ops : List (Op T)} (hops : RunValid l ops) :
    ∃ v', v.run ops = .ok v' ∧ v'.Holds (ops.foldl (fun l op => op.apply l) l) :=
  foldlM_except_of_pre (f := exec) (c := fun l (op : Op T) => op.apply l) Holds
    (fun l op => op.Valid l) (fun _ _ _ h hop => exec_spec hN h hop) h hops

end Run

/-! ## Several vectors

The copy constructor and the copy assignment read the elements of the other vector; the move
constructor, the move assignment and `swap` exchange representations. `Cmd.apply` is what the
statements do to the elements of `std::vector`s, a moved-from vector left as `swap` leaves it. -/

section Store

/-- `swap(other)`: exchanges `_union` and `_size`, the whole representation. -/
def swap (v other : prevector N T) : prevector N T × prevector N T :=
  (other, v)

/-- Statements over vectors named by `ι`: an operation on one, and `x = prevector(y)`,
`x = prevector(std::move(y))`, `x = y`, `x = std::move(y)` and `x.swap(y)`. -/
inductive Cmd (ι T : Type) where
  | op (x : ι) (o : Op T)
  | copyConstruct (x y : ι)
  | moveConstruct (x y : ι)
  | copyAssign (x y : ι)
  | moveAssign (x y : ι)
  | swap (x y : ι)

namespace Cmd

variable {ι : Type}

/-- An operation's precondition on the vector it acts on. -/
def Valid (env : ι → List T) : Cmd ι T → Prop
  | op x o => o.Valid (env x)
  | _ => True

instance decidableValid (env : ι → List T) : (c : Cmd ι T) → Decidable (c.Valid env)
  | op x o => inferInstanceAs (Decidable (o.Valid (env x)))
  | copyConstruct _ _ => isTrue trivial
  | moveConstruct _ _ => isTrue trivial
  | copyAssign _ _ => isTrue trivial
  | moveAssign _ _ => isTrue trivial
  | swap _ _ => isTrue trivial

variable [DecidableEq ι] [Inhabited T]

/-- The statement on the vectors named by `ι`. -/
def exec (σ : ι → prevector N T) : Cmd ι T → Except String (ι → prevector N T)
  | op x o => do
    let v ← (σ x).exec o
    pure (Function.update σ x v)
  | copyConstruct x y => do
    let values ← (σ y).elements
    let v ← ofValues values
    pure (Function.update σ x v)
  | moveConstruct x y =>
    -- `prevector()`, then `swap(other)`
    let (v, other) := prevector.swap empty (σ y)
    .ok (Function.update (Function.update σ x v) y other)
  | copyAssign x y =>
    -- `&other == this` returns at once
    if x = y then .ok σ
    else do
      let values ← (σ y).elements
      let v ← (σ x).assignRange values
      pure (Function.update σ x v)
  | moveAssign x y =>
    let (v, other) := (σ x).swap (σ y)
    .ok (Function.update (Function.update σ x v) y other)
  | swap x y =>
    let (v, other) := (σ x).swap (σ y)
    .ok (Function.update (Function.update σ x v) y other)

/-- What the statement does to the elements of `std::vector`s. -/
def apply (env : ι → List T) : Cmd ι T → ι → List T
  | op x o => Function.update env x (o.apply (env x))
  | copyConstruct x y => Function.update env x (env y)
  | moveConstruct x y => Function.update (Function.update env x (env y)) y []
  | copyAssign x y => Function.update env x (env y)
  | moveAssign x y => Function.update (Function.update env x (env y)) y (env x)
  | swap x y => Function.update (Function.update env x (env y)) y (env x)

/-- The statements one after the other, up to the first error. -/
def run (σ : ι → prevector N T) (cmds : List (Cmd ι T)) : Except String (ι → prevector N T) :=
  cmds.foldlM exec σ

/-- A sequence of statements each valid on the elements the ones before it leave. -/
abbrev RunValid (env : ι → List T) (cmds : List (Cmd ι T)) : Prop :=
  FoldPre apply Valid env cmds

omit [Inhabited T] in
/-- Vectors that hold their elements, one of them replaced by another that does. -/
theorem holds_update {σ : ι → prevector N T} {env : ι → List T} (h : ∀ x, (σ x).Holds (env x))
    {v : prevector N T} {l : List T} (hv : v.Holds l) (y : ι) :
    ∀ x, (Function.update σ y v x).Holds (Function.update env y l x) := by
  intro x
  by_cases hx : x = y
  · rw [hx, Function.update_self, Function.update_self]
    exact hv
  · rw [Function.update_of_ne hx, Function.update_of_ne hx]
    exact h x

/-- The step lemma: a valid statement on vectors that hold their elements succeeds, and they then
hold what the statement makes of them in `std::vector`s. -/
theorem exec_spec (hN : N < 2 ^ 31) {σ : ι → prevector N T} {env : ι → List T}
    (h : ∀ x, (σ x).Holds (env x)) {c : Cmd ι T} (hc : c.Valid env) :
    ∃ σ', c.exec σ = .ok σ' ∧ ∀ x, (σ' x).Holds (c.apply env x) := by
  cases c with
  | op x o =>
    obtain ⟨v, he, hv⟩ := prevector.exec_spec hN (h x) hc
    refine ⟨_, ?_, holds_update h hv x⟩
    rw [exec, he, except_ok_bind]
    rfl
  | copyConstruct x y =>
    have hy := h y
    obtain ⟨v, he, hv, hl, -⟩ := ofValues_spec (N := N) (env y) (by have := hy.length_lt; omega)
    refine ⟨_, ?_, holds_update h ⟨hv, hl, hy.length_lt⟩ x⟩
    rw [exec, elements_eq hy.toList_eq, except_ok_bind, he, except_ok_bind]
    rfl
  | moveConstruct x y => exact ⟨_, rfl, holds_update (holds_update h (h y) x) Holds_empty y⟩
  | copyAssign x y =>
    by_cases hxy : x = y
    · refine ⟨σ, if_pos hxy, ?_⟩
      rw [apply, hxy, Function.update_eq_self]
      exact h
    · have hx := h x
      have hy := h y
      obtain ⟨v, he, hv, hl⟩ :=
        assignRange_spec hN hx.inv hx.toList_eq hx.length_lt (env y) hy.length_lt
      refine ⟨_, ?_, holds_update h ⟨hv, hl, hy.length_lt⟩ x⟩
      rw [exec, if_neg hxy, elements_eq hy.toList_eq, except_ok_bind, he, except_ok_bind]
      rfl
  | moveAssign x y => exact ⟨_, rfl, holds_update (holds_update h (h y) x) (h x) y⟩
  | swap x y => exact ⟨_, rfl, holds_update (holds_update h (h y) x) (h x) y⟩

/-- The run lemma: a sequence of valid statements on vectors that hold their elements succeeds,
and leaves vectors that hold what the same statements leave in `std::vector`s. -/
theorem run_spec (hN : N < 2 ^ 31) {σ : ι → prevector N T} {env : ι → List T}
    (h : ∀ x, (σ x).Holds (env x)) {cmds : List (Cmd ι T)} (hcmds : RunValid env cmds) :
    ∃ σ', run σ cmds = .ok σ' ∧ ∀ x, (σ' x).Holds (cmds.foldl apply env x) :=
  foldlM_except_of_pre (f := exec) (c := apply) (fun σ env => ∀ x, (σ x).Holds (env x)) Valid
    (fun _ _ _ h hc => exec_spec hN h hc) h hcmds

end Cmd

/-- Vectors built from nothing by any sequence of valid statements: every statement succeeds, and
every vector keeps the representation invariant and holds what the same statements leave in
`std::vector`s. The statements keep every size below `2 ^ 31`, and `N < 2 ^ 31` makes the `_size`
of a heap vector, the size plus `N + 1`, fit `size_type`. -/
theorem prevector_refines_vector [Inhabited T] {ι : Type} [DecidableEq ι] (hN : N < 2 ^ 31)
    (cmds : List (Cmd ι T)) (hvalid : Cmd.RunValid (fun _ => []) cmds) :
    ∃ σ, Cmd.run (fun _ => (empty : prevector N T)) cmds = .ok σ ∧
      ∀ x, (σ x).Inv ∧ (σ x).toList = some (cmds.foldl Cmd.apply (fun _ => []) x) := by
  obtain ⟨σ, hrun, hσ⟩ := Cmd.run_spec hN (fun _ => Holds_empty) hvalid
  exact ⟨σ, hrun, fun x => ⟨(hσ x).inv, (hσ x).toList_eq⟩⟩

theorem prevector_refines_vector_heap :
    ∃ σ, Cmd.run (fun _ => (empty : prevector 2 UInt8))
        [.op true (.push_back 1), .op true (.insertRange 0 [5, 6]), .copyConstruct false true,
          .op false (.erase 0 2), .swap true false, .op true (.insertCount 1 2 7)] = .ok σ ∧
      ∀ x, (σ x).Inv ∧ (σ x).toList = some (List.foldl Cmd.apply (fun _ => [])
        [.op true (.push_back 1), .op true (.insertRange 0 [5, 6]), .copyConstruct false true,
          .op false (.erase 0 2), .swap true false, .op true (.insertCount 1 2 7)] x) :=
  prevector_refines_vector (by norm_num) _ (by decide)

end Store

end prevector

end HydraNode
