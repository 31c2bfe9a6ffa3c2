import Mathlib

/-!
# Loops that may return early

A loop over a list whose body either goes on with a new state or leaves the enclosing
function with `return false`. `loopBreak f s l` runs the body `f` from the state `s` over
`l`; it answers whether the loop ran to its end, together with the state as it stands when
the loop stops. Keeping the state of a loop that stopped early matters when the state
outlives the call, as a member of an object does.

## Main definitions

* `loopBreak`, `loopBreakE`

## Main results

* `loopBreak_append` — a loop over two lists is the first loop, then the second if the first
  ran to its end
* `loopBreak_of_sim` — a loop that runs to its end with one body runs to its end with any
  body that agrees with it on the steps that go on
* `loopBreak_eq_foldl` — a body that never stops is a fold
* `loopBreak_fst_of_forall`, `loopBreak_inv`, `loopBreak_of_mem` — a loop that runs to its end,
  and invariant rules for a loop
* `except_bind_eq_ok_iff`, `except_ok_bind` — a bind in `Except` that succeeds
* `foldlM_except_cons_eq_ok`, `foldlM_except_inv` — a fold in `Except` that succeeds, one
  step at a time, and the invariant rule for it
* `foldlM_except_sim` — a fold in `Except` simulated by a fold in `Option`
* `foldlM_except_of_pre` — a plain fold whose steps meet their preconditions simulated by a fold
  in `Except` that succeeds
* `foldlM_option_inv` — the invariant rule for a fold in `Option`
* `foldl_rel` — two plain folds that keep a relation between their states
* `loopBreakE` — a loop whose body may also fault; `loopBreak_eq_of_loopBreakE` and
  `loopBreakE_eq_ok` relate it to the loop without faults, `loopBreakE_append_cons_of_error`
  says where it faults
-/

universe u

namespace HydraNode

variable {σ α : Type*}

/-- A loop over `l` from the state `s` with the body `f`; the body's `false` leaves the loop
with the state it produced. -/
def loopBreak (f : σ → α → Bool × σ) : σ → List α → Bool × σ
  | s, [] => (true, s)
  | s, a :: l =>
    match f s a with
    | (true, s') => loopBreak f s' l
    | (false, s') => (false, s')

variable (f : σ → α → Bool × σ)

@[simp] theorem loopBreak_nil (s : σ) : loopBreak f s [] = (true, s) := rfl

theorem loopBreak_cons (s : σ) (a : α) (l : List α) :
    loopBreak f s (a :: l) =
      if (f s a).1 then loopBreak f (f s a).2 l else (false, (f s a).2) := by
  rcases h : f s a with ⟨b, s'⟩
  cases b <;> simp [loopBreak, h]

theorem loopBreak_append (s : σ) (l₁ l₂ : List α) :
    loopBreak f s (l₁ ++ l₂) =
      if (loopBreak f s l₁).1 then loopBreak f (loopBreak f s l₁).2 l₂ else loopBreak f s l₁ := by
  induction l₁ generalizing s with
  | nil => simp
  | cons a l ih =>
    rw [List.cons_append, loopBreak_cons, loopBreak_cons]
    by_cases h : (f s a).1 <;> simp [h, ih]

/-- A body that never stops the loop makes it a fold. -/
theorem loopBreak_eq_foldl (h : ∀ s a, (f s a).1 = true) (s : σ) (l : List α) :
    loopBreak f s l = (true, l.foldl (fun s a => (f s a).2) s) := by
  induction l generalizing s with
  | nil => rfl
  | cons a l ih => rw [loopBreak_cons, if_pos (h s a), ih, List.foldl_cons]

/-- Simulation of loops: when every step of `f` on an element of the list that goes on is a
step of `g`, a loop of `f` that runs to its end is a loop of `g` that runs to its end, with
the same final state. The induction is on the list. -/
theorem loopBreak_of_sim {g : σ → α → Bool × σ} {l : List α}
    (hsim : ∀ s, ∀ a ∈ l, ∀ s', f s a = (true, s') → g s a = (true, s')) {s s' : σ}
    (hf : loopBreak f s l = (true, s')) : loopBreak g s l = (true, s') := by
  induction l generalizing s with
  | nil => exact hf
  | cons a l ih =>
    rw [loopBreak_cons] at hf
    by_cases ha : (f s a).1
    · rw [if_pos ha] at hf
      have hstep : f s a = (true, (f s a).2) := Prod.ext ha rfl
      rw [loopBreak_cons, hsim s a List.mem_cons_self _ hstep]
      exact ih (fun s b hb => hsim s b (List.mem_cons_of_mem a hb)) hf
    · rw [if_neg ha] at hf
      cases hf

/-- Invariant rule: a property that every step on a member of the list keeps holds of the state
the loop stops in, whether it ran to its end or not. -/
theorem loopBreak_inv (P : σ → Prop) {l : List α} (hstep : ∀ s, ∀ a ∈ l, P s → P (f s a).2)
    {s : σ} (hs : P s) : P (loopBreak f s l).2 := by
  induction l generalizing s with
  | nil => exact hs
  | cons a l ih =>
    have ha := hstep s a List.mem_cons_self hs
    rw [loopBreak_cons]
    split
    · exact ih (fun t b hb => hstep t b (List.mem_cons_of_mem a hb)) ha
    · exact ha

/-- A loop whose every step on a member of the list goes on runs to its end. -/
theorem loopBreak_fst_of_forall {l : List α} (h : ∀ s, ∀ a ∈ l, (f s a).1 = true) (s : σ) :
    (loopBreak f s l).1 = true := by
  induction l generalizing s with
  | nil => rfl
  | cons a l ih =>
    rw [loopBreak_cons, if_pos (h s a List.mem_cons_self)]
    exact ih (fun t b hb => h t b (List.mem_cons_of_mem a hb)) _

/-- A property that the step on one member of the list establishes, when it goes on, and that
every step keeps, holds of the state a loop that runs to its end stops in. -/
theorem loopBreak_of_mem (Q : σ → Prop) {l : List α} {a : α} (ha : a ∈ l)
    (hest : ∀ s, (f s a).1 = true → Q (f s a).2) (hkeep : ∀ s, ∀ b ∈ l, Q s → Q (f s b).2)
    {s : σ} (hrun : (loopBreak f s l).1 = true) : Q (loopBreak f s l).2 := by
  induction l generalizing s with
  | nil => cases ha
  | cons b l ih =>
    have hkeep' : ∀ s, ∀ c ∈ l, Q s → Q (f s c).2 :=
      fun t c hc => hkeep t c (List.mem_cons_of_mem b hc)
    rw [loopBreak_cons] at hrun ⊢
    by_cases hb : (f s b).1
    · rw [if_pos hb] at hrun ⊢
      rcases List.mem_cons.mp ha with rfl | ha
      · exact loopBreak_inv f Q hkeep' (hest s hb)
      · exact ih ha hkeep' hrun
    · rw [if_neg hb] at hrun
      cases hrun

/-! ## Folds that may fail -/

variable {ε : Type*} {f : σ → α → Except ε σ}

/-- A computation in `Except` followed by another succeeds exactly through a success of the
first. -/
theorem except_bind_eq_ok_iff {ε : Type*} {β γ : Type u} {x : Except ε β} {g : β → Except ε γ} {c : γ} :
    x >>= g = .ok c ↔ ∃ b, x = .ok b ∧ g b = .ok c := by
  cases x <;> simp [bind, Except.bind]

@[simp] theorem except_ok_bind {ε : Type*} {β γ : Type u} (b : β) (g : β → Except ε γ) :
    (Except.ok b : Except ε β) >>= g = g b := rfl

theorem foldlM_except_nil_eq_ok {s r : σ} : ([] : List α).foldlM f s = .ok r ↔ s = r :=
  ⟨fun h => by cases h; rfl, fun h => h ▸ rfl⟩

/-- A fold in `Except` succeeds when its first step does and the rest of the fold from there
does. -/
theorem foldlM_except_cons_eq_ok {s r : σ} {a : α} {l : List α} :
    (a :: l).foldlM f s = .ok r ↔ ∃ s', f s a = .ok s' ∧ l.foldlM f s' = .ok r := by
  rw [List.foldlM_cons]
  cases f s a with
  | error e => exact ⟨fun h => (nomatch h), fun ⟨_, h, _⟩ => (nomatch h)⟩
  | ok s' => exact ⟨fun h => ⟨s', rfl, h⟩, fun ⟨_, h, h'⟩ => by cases h; exact h'⟩

/-- Invariant rule: a property that every successful step on a member of the list keeps
holds after a fold that succeeds. -/
theorem foldlM_except_inv (P : σ → Prop) {l : List α}
    (hstep : ∀ s, ∀ a ∈ l, ∀ s', f s a = .ok s' → P s → P s') {s r : σ}
    (hrun : l.foldlM f s = .ok r) (hs : P s) : P r := by
  induction l generalizing s with
  | nil =>
    cases hrun
    exact hs
  | cons a l ih =>
    obtain ⟨s', h₁, h₂⟩ := foldlM_except_cons_eq_ok.mp hrun
    exact ih (fun t b hb => hstep t b (List.mem_cons_of_mem a hb)) h₂
      (hstep s a List.mem_cons_self s' h₁ hs)

/-- Simulation of folds: when every successful step of `f` from a state related by `R` to a
state of `g` is matched by a step of `g` to a related state, a fold of `f` that succeeds is
matched by a fold of `g` in `Option` that succeeds. -/
theorem foldlM_except_sim {τ : Type*} {g : τ → α → Option τ} (R : σ → τ → Prop) {l : List α}
    (hstep : ∀ s t, ∀ a ∈ l, ∀ s', f s a = .ok s' → R s t → ∃ t', g t a = some t' ∧ R s' t')
    {s r : σ} {t : τ} (hrun : l.foldlM f s = .ok r) (hst : R s t) :
    ∃ t', l.foldlM g t = some t' ∧ R r t' := by
  induction l generalizing s t with
  | nil =>
    cases hrun
    exact ⟨t, rfl, hst⟩
  | cons a l ih =>
    obtain ⟨s', h₁, h₂⟩ := foldlM_except_cons_eq_ok.mp hrun
    obtain ⟨t', hg, hst'⟩ := hstep s t a List.mem_cons_self s' h₁ hst
    obtain ⟨t'', hrest, hr⟩ :=
      ih (fun u v b hb => hstep u v b (List.mem_cons_of_mem a hb)) h₂ hst'
    exact ⟨t'', by rw [List.foldlM_cons, hg]; exact hrest, hr⟩

/-- Each step of the fold of `c` from `t` over `l` meets the precondition `pre`. -/
def FoldPre {τ : Type*} (c : τ → α → τ) (pre : τ → α → Prop) : τ → List α → Prop
  | _, [] => True
  | t, a :: l => pre t a ∧ FoldPre c pre (c t a) l

instance decidableFoldPre {τ : Type*} (c : τ → α → τ) (pre : τ → α → Prop)
    [∀ t a, Decidable (pre t a)] : ∀ t l, Decidable (FoldPre c pre t l)
  | _, [] => isTrue trivial
  | t, a :: l =>
    have := decidableFoldPre c pre (c t a) l
    inferInstanceAs (Decidable (pre t a ∧ FoldPre c pre (c t a) l))

/-- Forward simulation of a plain fold by a fold in `Except`: where every step of `f` from a state
related by `R` to one of `c`, on an input that meets the precondition there, succeeds in a state
related to the step of `c`, the fold of `f` over inputs that meet their preconditions along the
fold of `c` succeeds, in a state related to that fold's. -/
theorem foldlM_except_of_pre {τ : Type*} {c : τ → α → τ} (R : σ → τ → Prop)
    (pre : τ → α → Prop) (hstep : ∀ s t a, R s t → pre t a → ∃ s', f s a = .ok s' ∧ R s' (c t a)) :
    ∀ {l : List α} {s : σ} {t : τ}, R s t → FoldPre c pre t l →
      ∃ r, l.foldlM f s = .ok r ∧ R r (l.foldl c t)
  | [], s, _, hst, _ => ⟨s, rfl, hst⟩
  | a :: l, s, t, hst, ⟨ha, hl⟩ => by
    obtain ⟨s', hs', hst'⟩ := hstep s t a hst ha
    obtain ⟨r, hr, hrt⟩ := foldlM_except_of_pre R pre hstep hst' hl
    refine ⟨r, ?_, hrt⟩
    rw [List.foldlM_cons, hs']
    exact hr

/-! ## Folds in `Option`, and plain folds -/

/-- Invariant rule: a property that every step on a member of the list keeps holds after a
fold in `Option` that succeeds. -/
theorem foldlM_option_inv {g : σ → α → Option σ} (P : σ → Prop) {l : List α}
    (hstep : ∀ s, ∀ a ∈ l, ∀ s', g s a = some s' → P s → P s') {s r : σ}
    (hrun : l.foldlM g s = some r) (hs : P s) : P r := by
  induction l generalizing s with
  | nil =>
    cases hrun
    exact hs
  | cons a l ih =>
    rw [List.foldlM_cons, Option.bind_eq_bind, Option.bind_eq_some_iff] at hrun
    obtain ⟨s', h₁, h₂⟩ := hrun
    exact ih (fun t b hb => hstep t b (List.mem_cons_of_mem a hb)) h₂
      (hstep s a List.mem_cons_self s' h₁ hs)

/-- Simulation of plain folds: a relation between the states of two bodies that every step on a
member of the list keeps holds between the states after the folds. -/
theorem foldl_rel {τ : Type*} {b : σ → α → σ} {c : τ → α → τ} (R : σ → τ → Prop) {l : List α}
    (hstep : ∀ s t, ∀ a ∈ l, R s t → R (b s a) (c t a)) {s : σ} {t : τ} (hst : R s t) :
    R (l.foldl b s) (l.foldl c t) := by
  induction l generalizing s t with
  | nil => exact hst
  | cons a l ih =>
    exact ih (fun u v x hx => hstep u v x (List.mem_cons_of_mem a hx))
      (hstep s t a List.mem_cons_self hst)

/-! ## Loops whose body may fault -/

/-- `loopBreak` with a body that may also fault with an error of `ε`, which leaves the loop and
the enclosing function at once. -/
def loopBreakE (f : σ → α → Except ε (Bool × σ)) : σ → List α → Except ε (Bool × σ)
  | s, [] => .ok (true, s)
  | s, a :: l =>
    match f s a with
    | .error e => .error e
    | .ok (true, s') => loopBreakE f s' l
    | .ok (false, s') => .ok (false, s')

variable {f : σ → α → Except ε (Bool × σ)} {g : σ → α → Bool × σ}

@[simp] theorem loopBreakE_nil (s : σ) : loopBreakE f s [] = .ok (true, s) := rfl

/-- Refinement of loops: where every step of `f` on a member of the list that does not fault is
the step of `g`, a loop of `f` that does not fault is the loop of `g`. The induction is on the
list. -/
theorem loopBreak_eq_of_loopBreakE {l : List α}
    (hsim : ∀ s, ∀ a ∈ l, ∀ r, f s a = .ok r → g s a = r) {s : σ} {r : Bool × σ}
    (h : loopBreakE f s l = .ok r) : loopBreak g s l = r := by
  induction l generalizing s with
  | nil =>
    cases h
    rfl
  | cons a l ih =>
    have hg := hsim s a List.mem_cons_self
    rcases hfa : f s a with e | ⟨_ | _, s'⟩
    · simp only [loopBreakE, hfa, reduceCtorEq] at h
    · simp only [loopBreakE, hfa, Except.ok.injEq] at h
      rw [loopBreak_cons, hg _ hfa, ← h]
      rfl
    · simp only [loopBreakE, hfa] at h
      rw [loopBreak_cons, hg _ hfa]
      exact ih (fun t b hb => hsim t b (List.mem_cons_of_mem a hb)) h

/-- Invariant rule for faults: where every step of `f` from a state of `P` on a member of the
list is the step of `g` and keeps `P`, the loop of `f` does not fault and is the loop of `g`. -/
theorem loopBreakE_eq_ok (P : σ → Prop) {l : List α}
    (hstep : ∀ s, ∀ a ∈ l, P s → f s a = .ok (g s a) ∧ P (g s a).2) {s : σ} (hs : P s) :
    loopBreakE f s l = .ok (loopBreak g s l) := by
  induction l generalizing s with
  | nil => rfl
  | cons a l ih =>
    obtain ⟨hf, hP⟩ := hstep s a List.mem_cons_self hs
    rcases hg : g s a with ⟨_ | _, s'⟩
    · simp only [loopBreakE, hf, hg, loopBreak]
    · rw [hg] at hP
      simp only [loopBreakE, hf, hg, loopBreak]
      exact ih (fun t b hb => hstep t b (List.mem_cons_of_mem a hb)) hP

/-- A loop faults at a member whose step faults, once the steps before it went on. -/
theorem loopBreakE_append_cons_of_error {l₁ l₂ : List α} {a : α} {s s' : σ} {e : ε}
    (h₁ : loopBreakE f s l₁ = .ok (true, s')) (ha : f s' a = .error e) :
    loopBreakE f s (l₁ ++ a :: l₂) = .error e := by
  induction l₁ generalizing s with
  | nil =>
    cases h₁
    simp only [List.nil_append, loopBreakE, ha]
  | cons b l ih =>
    rcases hfb : f s b with e' | ⟨_ | _, s''⟩
    · simp only [loopBreakE, hfb, reduceCtorEq] at h₁
    · simp only [loopBreakE, hfb, Except.ok.injEq, Prod.mk.injEq, Bool.false_eq_true,
        false_and] at h₁
    · simp only [loopBreakE, hfb] at h₁
      simp only [List.cons_append, loopBreakE, hfb]
      exact ih h₁

end HydraNode
