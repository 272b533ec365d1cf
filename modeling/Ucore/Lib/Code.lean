/-
  Code with a state that returns a result or an error code, or panics.

  Running `x : Code σ ε α` from `s` gives `none` if it panics, and else what it returns with the
  state it leaves; an error keeps what was done before it.

  * `bind_eq_some`, `pure_eq_some`, …: what a piece of code has done if it returned (inversion);
  * `Runs` and its rules: it returns;
  * `Passes`: it returns no error;
  * `Keeps` and its rules: a property of the state that it keeps.

  The two are used together: what the first part has done is what the rest starts from
  (`Runs.bind`).
-/
import Mathlib.Data.Option.Basic

def Code (σ ε α : Type) : Type := σ → Option (Except ε α × σ)

namespace Code

variable {σ ε ε' α β : Type}

/-! ## The operations -/

instance : Monad (Code σ ε) where
  pure a s := some (.ok a, s)
  bind x f s := match x s with
    | none => none
    | some (.ok a, t) => f a t
    | some (.error e, t) => some (.error e, t)

instance : LawfulMonad (Code σ ε) := LawfulMonad.mk' _
  (fun x => funext fun s => by
    change (match x s with
      | none => none
      | some (.ok a, t) => some (.ok a, t)
      | some (.error e, t) => some (.error e, t)) = x s
    rcases x s with _ | ⟨_ | _, _⟩ <;> rfl)
  (fun _ _ => rfl)
  (fun x f g => funext fun s => by
    change (match (match x s with
        | none => none
        | some (.ok a, t) => f a t
        | some (.error e, t) => some (.error e, t)) with
      | none => none
      | some (.ok a, t) => g a t
      | some (.error e, t) => some (.error e, t)) = match x s with
      | none => none
      | some (.ok a, t) => (f a >>= g) t
      | some (.error e, t) => some (.error e, t)
    rcases x s with _ | ⟨_ | _, _⟩ <;> rfl)

/-- Returns an error code. -/
def throw (e : ε) : Code σ ε α := fun s => some (.error e, s)

/-- `assert(p)`. -/
def assert (p : Prop) [Decidable p] : Code σ ε Unit := fun s =>
  if p then some (.ok (), s) else none

def panic : Code σ ε α := fun _ => none

def get : Code σ ε σ := fun s => some (.ok s, s)

def modify (f : σ → σ) : Code σ ε Unit := fun s => some (.ok (), f s)

/-- Runs `x` on a part of the state. -/
def on {τ : Type} (part : τ → σ) (put : τ → σ → τ) (x : Code σ ε α) : Code τ ε α := fun s =>
  (x (part s)).map fun (r, u) => (r, put s u)

/-- Hands the error code to the caller as a value (`if ((ret = x) != 0) …`). -/
def attempt (x : Code σ ε α) : Code σ ε' (Except ε α) := fun s =>
  (x s).map fun (r, t) => (.ok r, t)

/-! ## Inversion -/

variable {x : Code σ ε α} {f : α → Code σ ε β} {s t : σ} {r : Except ε α} {r' : Except ε β}

theorem bind_eq_some : (x >>= f) s = some (r', t) ↔
    (∃ a u, x s = some (.ok a, u) ∧ f a u = some (r', t)) ∨
      ∃ e, x s = some (.error e, t) ∧ r' = .error e := by
  change (match x s with
    | none => none
    | some (.ok a, t) => f a t
    | some (.error e, t) => some (.error e, t)) = some (r', t) ↔ _
  rcases x s with _ | ⟨e | a, u⟩
  · simp
  · simp only [Option.some.injEq, Prod.mk.injEq]
    constructor
    · rintro ⟨rfl, rfl⟩
      exact .inr ⟨e, ⟨rfl, rfl⟩, rfl⟩
    · rintro (⟨a, u', ⟨h, -⟩, -⟩ | ⟨e', ⟨h, rfl⟩, rfl⟩)
      · cases h
      · cases h
        exact ⟨rfl, rfl⟩
  · simp only [Option.some.injEq, Prod.mk.injEq]
    constructor
    · intro h
      exact .inl ⟨a, u, ⟨rfl, rfl⟩, h⟩
    · rintro (⟨a', u', ⟨h, rfl⟩, h'⟩ | ⟨e', ⟨h, -⟩, -⟩)
      · cases h
        exact h'
      · cases h

theorem bind_eq_ok {b : β} : (x >>= f) s = some (.ok b, t) ↔
    ∃ a u, x s = some (.ok a, u) ∧ f a u = some (.ok b, t) := by
  rw [bind_eq_some]
  refine or_iff_left ?_
  rintro ⟨e, -, h⟩
  cases h

@[simp] theorem pure_eq_some {a : α} :
    (pure a : Code σ ε α) s = some (r, t) ↔ r = .ok a ∧ t = s := by
  change some (Except.ok a, s) = some (r, t) ↔ _
  simp only [Option.some.injEq, Prod.mk.injEq]
  exact ⟨fun h => ⟨h.1.symm, h.2.symm⟩, fun h => ⟨h.1.symm, h.2.symm⟩⟩

@[simp] theorem throw_eq_some {e : ε} :
    (throw e : Code σ ε α) s = some (r, t) ↔ r = .error e ∧ t = s := by
  simp only [throw, Option.some.injEq, Prod.mk.injEq]
  exact ⟨fun h => ⟨h.1.symm, h.2.symm⟩, fun h => ⟨h.1.symm, h.2.symm⟩⟩

@[simp] theorem assert_eq_some {p : Prop} [Decidable p] {r : Except ε Unit} :
    (assert p : Code σ ε Unit) s = some (r, t) ↔ p ∧ r = .ok () ∧ t = s := by
  unfold assert
  split
  · rename_i h
    simp only [Option.some.injEq, Prod.mk.injEq, h, true_and]
    exact ⟨fun h => ⟨h.1.symm, h.2.symm⟩, fun h => ⟨h.1.symm, h.2.symm⟩⟩
  · rename_i h
    simp [h]

@[simp] theorem get_eq_some {r : Except ε σ} :
    (get : Code σ ε σ) s = some (r, t) ↔ r = .ok s ∧ t = s := by
  simp only [get, Option.some.injEq, Prod.mk.injEq]
  exact ⟨fun h => ⟨h.1.symm, h.2.symm⟩, fun h => ⟨h.1.symm, h.2.symm⟩⟩

@[simp] theorem modify_eq_some {g : σ → σ} {r : Except ε Unit} :
    (modify g : Code σ ε Unit) s = some (r, t) ↔ r = .ok () ∧ t = g s := by
  simp only [modify, Option.some.injEq, Prod.mk.injEq]
  exact ⟨fun h => ⟨h.1.symm, h.2.symm⟩, fun h => ⟨h.1.symm, h.2.symm⟩⟩

@[simp] theorem attempt_eq_some {r' : Except ε' (Except ε α)} :
    attempt x s = some (r', t) ↔ ∃ r, x s = some (r, t) ∧ r' = .ok r := by
  unfold attempt
  rcases x s with _ | ⟨r, u⟩
  · simp
  · simp only [Option.map_some, Option.some.injEq, Prod.mk.injEq]
    constructor
    · rintro ⟨rfl, rfl⟩
      exact ⟨r, ⟨rfl, rfl⟩, rfl⟩
    · rintro ⟨r', ⟨rfl, rfl⟩, rfl⟩
      exact ⟨rfl, rfl⟩

@[simp] theorem panic_eq_some : (panic : Code σ ε α) s = some (r, t) ↔ False := by simp [panic]

@[simp] theorem on_eq_some {τ : Type} {part : τ → σ} {put : τ → σ → τ} {s t : τ} :
    on part put x s = some (r, t) ↔ ∃ u, x (part s) = some (r, u) ∧ t = put s u := by
  unfold on
  rcases x (part s) with _ | ⟨r', u⟩
  · simp
  · simp only [Option.map_some, Option.some.injEq, Prod.mk.injEq]
    constructor
    · rintro ⟨rfl, rfl⟩
      exact ⟨u, ⟨rfl, rfl⟩, rfl⟩
    · rintro ⟨u', ⟨rfl, rfl⟩, rfl⟩
      exact ⟨rfl, rfl⟩

/-- The first part is a read of the state. -/
@[simp] theorem get_bind_eq_some {f : σ → Code σ ε β} :
    (get >>= f) s = some (r', t) ↔ f s s = some (r', t) := Iff.rfl

@[simp] theorem modify_bind_eq_some {g : σ → σ} {f : Unit → Code σ ε β} :
    (modify g >>= f) s = some (r', t) ↔ f () (g s) = some (r', t) := Iff.rfl

@[simp] theorem assert_bind_eq_some {p : Prop} [Decidable p] {f : Unit → Code σ ε β} :
    (assert p >>= f) s = some (r', t) ↔ p ∧ f () s = some (r', t) := by
  rw [bind_eq_some]
  constructor
  · rintro (⟨⟨⟩, u, h, hf⟩ | ⟨e, h, -⟩)
    · obtain ⟨hp, -, rfl⟩ := assert_eq_some.1 h
      exact ⟨hp, hf⟩
    · cases (assert_eq_some.1 h).2.1
  · rintro ⟨hp, hf⟩
    exact .inl ⟨(), s, assert_eq_some.2 ⟨hp, rfl, rfl⟩, hf⟩

@[simp] theorem attempt_bind_eq_some {f : Except ε α → Code σ ε' β} {r' : Except ε' β} :
    (attempt x >>= f) s = some (r', t) ↔ ∃ r u, x s = some (r, u) ∧ f r u = some (r', t) := by
  rw [bind_eq_some]
  simp only [attempt_eq_some, Except.ok.injEq]
  constructor
  · rintro (⟨r, u, ⟨r', h, rfl⟩, hf⟩ | ⟨e, ⟨r', -, h⟩, -⟩)
    · exact ⟨r, u, h, hf⟩
    · cases h
  · rintro ⟨r, u, h, hf⟩
    exact .inl ⟨r, u, ⟨r, h, rfl⟩, hf⟩

/-! ## Running -/

theorem bind_ok {a : α} {u : σ} (h : x s = some (.ok a, u)) : (x >>= f) s = f a u := by
  change (match x s with
    | none => none
    | some (.ok a, t) => f a t
    | some (.error e, t) => some (.error e, t)) = f a u
  rw [h]

theorem bind_error {e : ε} (h : x s = some (.error e, t)) :
    (x >>= f) s = some (.error e, t) := by
  change (match x s with
    | none => none
    | some (.ok a, t) => f a t
    | some (.error e, t) => some (.error e, t)) = _
  rw [h]

theorem bind_none (h : x s = none) : (x >>= f) s = none := by
  change (match x s with
    | none => none
    | some (.ok a, t) => f a t
    | some (.error e, t) => some (.error e, t)) = none
  rw [h]

/-- A bind depends on the outcome of its first part only. -/
theorem bind_congr_run {y : Code σ ε α} {u : σ} (h : x s = y u) : (x >>= f) s = (y >>= f) u := by
  rcases hy : y u with _ | ⟨_ | a, t⟩
  · rw [bind_none hy, bind_none (h.trans hy)]
  · rw [bind_error hy, bind_error (h.trans hy)]
  · rw [bind_ok hy, bind_ok (h.trans hy)]

theorem assert_bind {p : Prop} [Decidable p] {f : Unit → Code σ ε β} (h : p) :
    (assert p >>= f) s = f () s := bind_ok (if_pos h)

theorem attempt_bind {f : Except ε α → Code σ ε' β} (h : x s = some (r, t)) :
    (attempt x >>= f) s = f r t := by
  refine bind_ok ?_
  rw [attempt, h]
  rfl

theorem on_run {τ : Type} {part : τ → σ} {put : τ → σ → τ} {s : τ} {u : σ}
    (h : x (part s) = some (r, u)) : on part put x s = some (r, put s u) :=
  on_eq_some.2 ⟨u, h, rfl⟩

/-! ## It returns -/

/-- `x` returns when it is run from `s`. -/
def Runs (x : Code σ ε α) (s : σ) : Prop := ∃ r t, x s = some (r, t)

theorem Runs.pure (a : α) : Runs (pure a : Code σ ε α) s := ⟨.ok a, s, rfl⟩

theorem Runs.throw (e : ε) : Runs (Code.throw e : Code σ ε α) s := ⟨.error e, s, rfl⟩

theorem Runs.assert {p : Prop} [Decidable p] (h : p) : Runs (Code.assert p : Code σ ε Unit) s :=
  ⟨.ok (), s, if_pos h⟩

theorem Runs.bind (h : Runs x s) (hf : ∀ a u, x s = some (.ok a, u) → Runs (f a) u) :
    Runs (x >>= f) s := by
  obtain ⟨e | a, u, h⟩ := h
  · exact ⟨.error e, u, bind_eq_some.2 (.inr ⟨e, h, rfl⟩)⟩
  · obtain ⟨r', t, h'⟩ := hf a u h
    exact ⟨r', t, bind_eq_some.2 (.inl ⟨a, u, h, h'⟩)⟩

@[simp] theorem runs_get_bind {f : σ → Code σ ε β} : Runs (get >>= f) s ↔ Runs (f s) s := Iff.rfl

@[simp] theorem runs_modify_bind {g : σ → σ} {f : Unit → Code σ ε β} :
    Runs (modify g >>= f) s ↔ Runs (f ()) (g s) := Iff.rfl

@[simp] theorem runs_assert_bind {p : Prop} [Decidable p] {f : Unit → Code σ ε β} :
    Runs (Code.assert p >>= f) s ↔ p ∧ Runs (f ()) s := by
  simp only [Runs, assert_bind_eq_some]
  constructor
  · rintro ⟨r, t, hp, h⟩
    exact ⟨hp, r, t, h⟩
  · rintro ⟨hp, r, t, h⟩
    exact ⟨r, t, hp, h⟩

theorem Runs.on {τ : Type} {part : τ → σ} {put : τ → σ → τ} {s : τ} (h : Runs x (part s)) :
    Runs (Code.on part put x) s := by
  obtain ⟨r, u, h⟩ := h
  exact ⟨r, put s u, on_eq_some.2 ⟨u, h, rfl⟩⟩

theorem Runs.attempt (h : Runs x s) : Runs (Code.attempt x : Code σ ε' _) s := by
  obtain ⟨r, t, h⟩ := h
  exact ⟨.ok r, t, attempt_eq_some.2 ⟨r, h, rfl⟩⟩

/-! ## It returns no error -/

/-- `x` does not return an error when it is run from `s`. -/
def Passes (x : Code σ ε α) (s : σ) : Prop :=
  match x s with
  | some (.error _, _) => False
  | _ => True

instance (x : Code σ ε α) (s : σ) : Decidable (x.Passes s) := by
  unfold Passes
  split <;> infer_instance

theorem Passes.ne_error {x : Code σ ε α} {e : ε} (h : x.Passes s) :
    x s ≠ some (.error e, t) := fun he => by
  rw [Passes, he] at h
  exact h

/-! ## What it keeps -/

/-- `P` holds again when `x` has returned. -/
def Keeps (P : σ → Prop) (x : Code σ ε α) : Prop := ∀ s r t, P s → x s = some (r, t) → P t

namespace Keeps

variable {P : σ → Prop}

theorem pure (a : α) : Keeps P (pure a : Code σ ε α) := fun _ _ _ hs h =>
  (pure_eq_some.1 h).2 ▸ hs

theorem throw (e : ε) : Keeps P (Code.throw e : Code σ ε α) := fun _ _ _ hs h =>
  (throw_eq_some.1 h).2 ▸ hs

theorem panic : Keeps P (Code.panic : Code σ ε α) := fun _ _ _ _ h => (panic_eq_some.1 h).elim

theorem assert (p : Prop) [Decidable p] : Keeps P (Code.assert p : Code σ ε Unit) :=
  fun _ _ _ hs h => (assert_eq_some.1 h).2.2 ▸ hs

theorem get : Keeps P (Code.get : Code σ ε σ) := fun _ _ _ hs h => (get_eq_some.1 h).2 ▸ hs

theorem modify {g : σ → σ} (hg : ∀ s, P s → P (g s)) : Keeps P (Code.modify g : Code σ ε Unit) :=
  fun s _ _ hs h => (modify_eq_some.1 h).2 ▸ hg s hs

theorem bind (h : Keeps P x) (hf : ∀ a, Keeps P (f a)) : Keeps P (x >>= f) := by
  intro s r t hs hr
  obtain ⟨a, u, h₁, h₂⟩ | ⟨e, h₁, -⟩ := bind_eq_some.1 hr
  · exact hf a u r t (h s _ u hs h₁) h₂
  · exact h s _ t hs h₁

theorem ite {c : Prop} [Decidable c] {y : Code σ ε α} (h : Keeps P x) (h' : Keeps P y) :
    Keeps P (if c then x else y) := by
  split
  · exact h
  · exact h'

theorem attempt (h : Keeps P x) : Keeps P (Code.attempt x : Code σ ε' _) := by
  intro s r t hs hr
  obtain ⟨r', h', -⟩ := attempt_eq_some.1 hr
  exact h s r' t hs h'

theorem on {τ : Type} {P : τ → Prop} {part : τ → σ} {put : τ → σ → τ}
    (hput : ∀ s u, P s → P (put s u)) : Keeps P (Code.on part put x) := by
  intro s r t hs hr
  obtain ⟨u, -, rfl⟩ := on_eq_some.1 hr
  exact hput s u hs

end Keeps

end Code
