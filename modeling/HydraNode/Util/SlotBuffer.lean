import Mathlib

/-!
# Buffers of slots

A buffer of `n` slots is a list of length `n` whose slots hold a value or nothing yet. `write`
overwrites a window of slots, `move` copies one window of a buffer onto another as `memmove`
does, reading the source as it was before the copy, and `resize` is `realloc`: the first slots
kept, new ones empty. `read buf n` is the list of the values in the first `n` slots, if they
all hold one.

The lemmas say what each operation does to the values of a prefix of the buffer, which is how
a container that keeps its elements at the start of a buffer is read: appending, inserting a
window by moving the tail up, erasing one by moving the tail down, and copying the prefix into
another buffer.

## Main definitions

* `Buffer.write`, `Buffer.move`, `Buffer.resize`, `Buffer.uninit`
* `Buffer.read`

## Main results

* `Buffer.read_eq_some_iff` — `read` through `take`
* `Buffer.read_append`, `Buffer.read_insert`, `Buffer.read_erase` — the values after a write
  at the end, an insertion and an erasure
-/

namespace Buffer

variable {α : Type*}

/-- `n` slots that hold nothing yet. -/
def uninit (n : ℕ) : List (Option α) := List.replicate n none

/-- `buf` with the slots from `dst` on overwritten by `xs`. -/
def write (buf : List α) (dst : ℕ) (xs : List α) : List α :=
  buf.take dst ++ xs ++ buf.drop (dst + xs.length)

/-- `memmove`: `buf` with the `n` slots from `dst` on overwritten by the `n` slots from `src` on,
as they were before the copy. -/
def move (buf : List α) (dst src n : ℕ) : List α :=
  write buf dst ((buf.drop src).take n)

/-- `realloc` to `n` slots: the first `n` kept, the others new. -/
def resize (buf : List (Option α)) (n : ℕ) : List (Option α) :=
  buf.take n ++ uninit (n - buf.length)

/-- The values of the first `n` slots, if they all hold one. -/
def read : List (Option α) → ℕ → Option (List α)
  | _, 0 => some []
  | [], _ + 1 => none
  | none :: _, _ + 1 => none
  | some a :: buf, n + 1 => (read buf n).map (a :: ·)

theorem write_def (buf : List α) (dst : ℕ) (xs : List α) :
    write buf dst xs = buf.take dst ++ xs ++ buf.drop (dst + xs.length) :=
  rfl

theorem move_def (buf : List α) (dst src n : ℕ) :
    move buf dst src n = write buf dst ((buf.drop src).take n) :=
  rfl

theorem resize_def (buf : List (Option α)) (n : ℕ) :
    resize buf n = buf.take n ++ uninit (n - buf.length) :=
  rfl

@[simp] theorem read_zero (buf : List (Option α)) : read buf 0 = some [] := by
  cases buf <;> rfl

@[simp] theorem read_nil_succ (n : ℕ) : read ([] : List (Option α)) (n + 1) = none :=
  rfl

@[simp] theorem read_none_succ (buf : List (Option α)) (n : ℕ) :
    read (none :: buf) (n + 1) = none :=
  rfl

@[simp] theorem read_some_succ (a : α) (buf : List (Option α)) (n : ℕ) :
    read (some a :: buf) (n + 1) = (read buf n).map (a :: ·) :=
  rfl

@[simp] theorem length_uninit (n : ℕ) : (uninit n : List (Option α)).length = n :=
  List.length_replicate

theorem length_write {buf xs : List α} {dst : ℕ} (h : dst + xs.length ≤ buf.length) :
    (write buf dst xs).length = buf.length := by
  simp only [write_def, List.length_append, List.length_take, List.length_drop]
  omega

theorem length_move {buf : List α} {dst src n : ℕ} (hdst : dst + n ≤ buf.length) :
    (move buf dst src n).length = buf.length :=
  length_write (by simp only [List.length_take, List.length_drop]; omega)

@[simp] theorem length_resize (buf : List (Option α)) (n : ℕ) : (resize buf n).length = n := by
  simp only [resize_def, List.length_append, List.length_take, length_uninit]
  omega

/-! ### Reading a prefix -/

theorem read_eq_some_iff : ∀ {buf : List (Option α)} {n : ℕ} {l : List α},
    read buf n = some l ↔ l.length = n ∧ buf.take n = l.map some
  | _, 0, l => by
    simp only [read_zero, Option.some.injEq, List.take_zero]
    constructor
    · rintro rfl
      exact ⟨rfl, rfl⟩
    · rintro ⟨hl, -⟩
      exact (List.length_eq_zero_iff.mp hl).symm
  | [], n + 1, l => by
    simp only [read_nil_succ, reduceCtorEq, false_iff, List.take_nil, not_and]
    intro hl hnil
    cases l <;> simp_all
  | none :: buf, n + 1, l => by
    simp only [read_none_succ, reduceCtorEq, false_iff, List.take_succ_cons, not_and]
    intro _ h
    cases l <;> simp_all
  | some a :: buf, n + 1, l => by
    simp only [read_some_succ, Option.map_eq_some_iff, List.take_succ_cons]
    constructor
    · rintro ⟨l', hl', rfl⟩
      obtain ⟨hlen, htake⟩ := read_eq_some_iff.mp hl'
      exact ⟨by rw [List.length_cons, hlen], by rw [htake, List.map_cons]⟩
    · rintro ⟨hlen, htake⟩
      cases l with
      | nil => cases hlen
      | cons b l =>
        simp only [List.map_cons, List.cons.injEq, Option.some.injEq] at htake
        obtain ⟨rfl, htake⟩ := htake
        exact ⟨l, read_eq_some_iff.mpr ⟨by simpa using hlen, htake⟩, rfl⟩

theorem le_length_of_read {buf : List (Option α)} {n : ℕ} {l : List α}
    (h : read buf n = some l) : n ≤ buf.length := by
  obtain ⟨hlen, htake⟩ := read_eq_some_iff.mp h
  have := congrArg List.length htake
  simp only [List.length_take, List.length_map] at this
  omega

/-- The values of a prefix do not depend on the slots after it. -/
theorem read_congr {buf buf' : List (Option α)} {n : ℕ} (h : buf'.take n = buf.take n) :
    read buf' n = read buf n := by
  rcases hr : read buf n with _ | l
  · by_contra hne
    obtain ⟨l, hl⟩ := Option.ne_none_iff_exists'.mp hne
    obtain ⟨hlen, htake⟩ := read_eq_some_iff.mp hl
    rw [h] at htake
    rw [read_eq_some_iff.mpr ⟨hlen, htake⟩] at hr
    cases hr
  · obtain ⟨hlen, htake⟩ := read_eq_some_iff.mp hr
    exact read_eq_some_iff.mpr ⟨hlen, h ▸ htake⟩

theorem take_of_read {buf : List (Option α)} {n : ℕ} {l : List α} (h : read buf n = some l)
    {p : ℕ} (hp : p ≤ n) : buf.take p = (l.take p).map some := by
  obtain ⟨-, htake⟩ := read_eq_some_iff.mp h
  rw [List.map_take, ← htake, List.take_take, Nat.min_eq_left hp]

theorem read_take {buf : List (Option α)} {n : ℕ} {l : List α} (h : read buf n = some l)
    {k : ℕ} (hk : k ≤ n) : read buf k = some (l.take k) := by
  obtain ⟨hlen, -⟩ := read_eq_some_iff.mp h
  exact read_eq_some_iff.mpr ⟨by simp [hlen, hk], take_of_read h hk⟩

/-! ### Writes and moves -/

/-- A write after a prefix leaves its values. -/
theorem read_write_of_le {buf xs : List (Option α)} {dst n : ℕ} (hn : n ≤ dst)
    (hdst : dst ≤ buf.length) : read (write buf dst xs) n = read buf n := by
  apply read_congr
  rw [write_def, List.append_assoc, List.take_append_of_le_length (by simp; omega),
    List.take_take, Nat.min_eq_left hn]

/-- Values written right after a prefix extend it. -/
theorem read_append {buf : List (Option α)} {n : ℕ} {l xs : List α} (h : read buf n = some l)
    (hb : n + xs.length ≤ buf.length) :
    read (write buf n (xs.map some)) (n + xs.length) = some (l ++ xs) := by
  obtain ⟨hlen, htake⟩ := read_eq_some_iff.mp h
  refine read_eq_some_iff.mpr ⟨by simp [hlen], ?_⟩
  have hn : (buf.take n).length = n := by simp; omega
  rw [write_def, List.append_assoc, List.take_append, List.take_of_length_le (by omega), hn,
    Nat.add_sub_cancel_left, List.take_left' (List.length_map _), htake, List.map_append]

/-- The window a move copies, when it lies inside the buffer. -/
theorem move_eq {buf : List α} {dst src n : ℕ} (hsrc : src + n ≤ buf.length) :
    move buf dst src n = buf.take dst ++ (buf.drop src).take n ++ buf.drop (dst + n) := by
  have hw : ((buf.drop src).take n).length = n := by simp; omega
  rw [move_def, write_def, hw]

/-- The values of the prefix from `p` on, as a window of the buffer. -/
theorem take_drop_of_read {buf : List (Option α)} {n : ℕ} {l : List α} (h : read buf n = some l)
    (p : ℕ) : (buf.drop p).take (n - p) = (l.drop p).map some := by
  obtain ⟨-, htake⟩ := read_eq_some_iff.mp h
  rw [← List.drop_take, htake, List.map_drop]

/-- Moving the values from `p` on up by the length of `xs` and writing `xs` at `p` inserts it. -/
theorem read_insert {buf : List (Option α)} {n p : ℕ} {l xs : List α} (h : read buf n = some l)
    (hp : p ≤ n) (hb : n + xs.length ≤ buf.length) :
    read (write (move buf (p + xs.length) p (n - p)) p (xs.map some)) (n + xs.length) =
      some (l.take p ++ xs ++ l.drop p) := by
  have hlen := (read_eq_some_iff.mp h).1
  have hmove := @move_eq _ buf (p + xs.length) p (n - p) (by omega)
  rw [show p + xs.length + (n - p) = n + xs.length by omega, List.append_assoc] at hmove
  have hfront : (buf.take (p + xs.length)).length = p + xs.length := by simp; omega
  -- the write keeps what is below `p` and what the move put above the window
  have hwrite : write (move buf (p + xs.length) p (n - p)) p (xs.map some) =
      buf.take p ++ xs.map some ++
        ((buf.drop p).take (n - p) ++ buf.drop (n + xs.length)) := by
    rw [write_def, hmove, List.length_map, List.take_append_of_le_length (by omega), List.take_take,
      Nat.min_eq_left (by omega), List.drop_left' hfront]
  refine read_eq_some_iff.mpr ⟨by simp [hlen]; omega, ?_⟩
  rw [hwrite, take_drop_of_read h p, take_of_read h hp, ← List.append_assoc,
    List.take_left' (by simp [hlen]; omega)]
  simp only [List.map_append]

/-- Moving the values from `t` on down to `f` erases those between. -/
theorem read_erase {buf : List (Option α)} {n f t : ℕ} {l : List α} (h : read buf n = some l)
    (hft : f ≤ t) (ht : t ≤ n) :
    read (move buf f t (n - t)) (n - (t - f)) = some (l.take f ++ l.drop t) := by
  have hlen := (read_eq_some_iff.mp h).1
  have hbuf := le_length_of_read h
  refine read_eq_some_iff.mpr ⟨by simp [hlen]; omega, ?_⟩
  rw [move_eq (by omega), take_drop_of_read h t, take_of_read h (by omega),
    List.take_left' (by simp [hlen]; omega)]
  simp only [List.map_append]

/-- `realloc` to at least the prefix keeps its values. -/
theorem read_resize {buf : List (Option α)} {n m : ℕ} (hn : n ≤ m) (hbuf : n ≤ buf.length) :
    read (resize buf m) n = read buf n := by
  apply read_congr
  rw [resize_def, List.take_append_of_le_length (by simp; omega), List.take_take,
    Nat.min_eq_left hn]

/-- Copying a prefix to the start of another buffer copies its values. -/
theorem read_write_take {src dst : List (Option α)} {n : ℕ} (hsrc : n ≤ src.length) :
    read (write dst 0 (src.take n)) n = read src n := by
  apply read_congr
  have hlen : (src.take n).length = n := by simp; omega
  rw [write_def, List.take_zero, List.nil_append, List.take_left' hlen]

end Buffer
