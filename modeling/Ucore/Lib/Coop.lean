/-
  Code that runs alone until it waits.

  `Coop σ A ε α` is code on a state `σ` that returns a result or an error code, or panics.  Where it
  waits, others run, and what it waited for answers with an `A`.  The processes of a `Crew` run such
  code: a step runs one of them until it waits again, or is done.

  * `Safe` and its rules: a process keeps an invariant of the state and of what every process holds.
    It guarantees the invariant where it waits, and relies on it when it goes on, and on still
    holding what it held;
  * `Crew.kept`, `Crew.goes_on`: if every call is safe, the invariant holds in every state reached,
    and no step fails;
  * `alone`: code that nobody disturbs is plain `Code`;
  * `Code.Lens`: code on a part of the state is put together as it is on the whole.
-/
import Ucore.Lib.Code
import Ucore.Lib.Machine
import Mathlib.Logic.Function.Basic

open Function

inductive Coop (σ A ε α : Type) where
  | done (r : Except ε α)
  | panic
  | act (f : σ → σ) (k : σ → Coop σ A ε α)
  | wait (k : A → Coop σ A ε α)

namespace Coop

variable {σ A ε ε' α β : Type}

/-! ## The operations -/

protected def bind : Coop σ A ε α → (α → Coop σ A ε β) → Coop σ A ε β
  | done (.ok a), f => f a
  | done (.error e), _ => done (.error e)
  | panic, _ => panic
  | act g k, f => act g fun s => (k s).bind f
  | wait k, f => wait fun a => (k a).bind f

instance : Monad (Coop σ A ε) where
  pure a := done (.ok a)
  bind := Coop.bind

/-- Returns an error code. -/
def throw (e : ε) : Coop σ A ε α := done (.error e)

/-- Code that does not wait. -/
def atomic (x : Code σ ε α) : Coop σ A ε α :=
  act (fun s => (x s).elim s Prod.snd) fun s => (x s).elim panic fun q => done q.1

def get : Coop σ A ε σ := atomic Code.get

def modify (f : σ → σ) : Coop σ A ε Unit := atomic (Code.modify f)

/-- `assert(c)`. -/
def assert (c : Prop) [Decidable c] : Coop σ A ε Unit := atomic (Code.assert c)

/-- Waits for an answer. -/
def ask : Coop σ A ε A := wait fun a => done (.ok a)

/-- Hands the error code to the caller as a value. -/
def attempt : Coop σ A ε α → Coop σ A ε' (Except ε α)
  | done r => done (.ok r)
  | panic => panic
  | act f k => act f fun s => (k s).attempt
  | wait k => wait fun a => (k a).attempt

/-- Runs until it waits, or is done. -/
def run : Coop σ A ε α → σ → Option (Coop σ A ε α × σ)
  | done r, s => some (done r, s)
  | panic, _ => none
  | act f k, s => (k s).run (f s)
  | wait k, s => some (wait k, s)

def resume (a : A) : Coop σ A ε α → Coop σ A ε α
  | wait k => k a
  | x => x

def isDone : Coop σ A ε α → Bool
  | done _ => true
  | _ => false

def isWait : Coop σ A ε α → Bool
  | wait _ => true
  | _ => false

/-! ## Code that nobody disturbs -/

/-- Every wait is answered with `a`, and nothing else happens. -/
def alone (a : A) : Coop σ A ε α → Code σ ε α
  | done (.ok b) => pure b
  | done (.error e) => Code.throw e
  | panic => Code.panic
  | act f k => fun s => (k s).alone a (f s)
  | wait k => (k a).alone a

section
variable {a : A}

@[simp] theorem alone_pure (b : α) : (pure b : Coop σ A ε α).alone a = pure b := rfl

@[simp] theorem alone_throw (e : ε) : (throw e : Coop σ A ε α).alone a = Code.throw e := rfl

@[simp] theorem alone_panic : (panic : Coop σ A ε α).alone a = Code.panic := rfl

@[simp] theorem alone_ask : (ask : Coop σ A ε A).alone a = pure a := rfl

@[simp] theorem alone_bind (x : Coop σ A ε α) (f : α → Coop σ A ε β) :
    (x >>= f).alone a = x.alone a >>= fun b => (f b).alone a := by
  change (x.bind f).alone a = _
  induction x with
  | done r =>
    cases r with
    | ok b => rfl
    | error e => rfl
  | panic => rfl
  | act g k ih =>
    funext s
    exact congrFun (ih s) (g s)
  | wait k ih => exact ih a

@[simp] theorem alone_atomic (x : Code σ ε α) : (atomic x : Coop σ A ε α).alone a = x := by
  funext s
  change (Coop.alone a ((x s).elim panic fun q => done q.1)) ((x s).elim s Prod.snd) = x s
  rcases x s with _ | ⟨_ | _, t⟩ <;> rfl

@[simp] theorem alone_get : (get : Coop σ A ε σ).alone a = Code.get := alone_atomic _

@[simp] theorem alone_modify (f : σ → σ) :
    (modify f : Coop σ A ε Unit).alone a = Code.modify f := alone_atomic _

@[simp] theorem alone_assert (c : Prop) [Decidable c] :
    (assert c : Coop σ A ε Unit).alone a = Code.assert c := alone_atomic _

@[simp] theorem alone_attempt (x : Coop σ A ε α) :
    (x.attempt : Coop σ A ε' _).alone a = Code.attempt (x.alone a) := by
  induction x with
  | done r =>
    cases r with
    | ok b => rfl
    | error e => rfl
  | panic => rfl
  | act g k ih =>
    funext s
    exact congrFun (ih s) (g s)
  | wait k ih => exact ih a

theorem alone_ite {c : Prop} [Decidable c] (x y : Coop σ A ε α) :
    (if c then x else y).alone a = if c then x.alone a else y.alone a := by
  split <;> rfl

end

/-! ## Safe code -/

section
variable {P H : Type} [DecidableEq P] (I : (P → H) → σ → Prop) (p : P) (fails : Prop)

/-- If the process `p` runs the code, it has what `Q` says when it is done; the invariant `I` holds
    where it waits.  It panics only if `fails`. -/
def Safe (Q : Except ε α → (P → H) → σ → Prop) : Coop σ A ε α → (P → H) → σ → Prop
  | done r, hold, s => Q r hold s
  | panic, _, _ => fails
  | act f k, hold, s => Safe Q (k s) hold (f s)
  | wait k, hold, s => ∃ h, I (update hold p h) s ∧
      ∀ a hold' s', hold' p = h → I hold' s' → Safe Q (k a) hold' s'

/-- The rest of the code is safe. -/
def SafeThen (Q : Except ε β → (P → H) → σ → Prop) (f : α → Coop σ A ε β) :
    Except ε α → (P → H) → σ → Prop
  | .ok a, hold, s => Safe I p fails Q (f a) hold s
  | .error e, hold, s => Q (.error e) hold s

variable {I p fails} {Q : Except ε α → (P → H) → σ → Prop}
  {R : Except ε β → (P → H) → σ → Prop} {hold : P → H} {s t : σ} {x : Coop σ A ε α}
  {f : α → Coop σ A ε β} {r : Except ε α}

theorem safe_bind :
    Safe I p fails R (x >>= f) hold s ↔ Safe I p fails (SafeThen I p fails R f) x hold s := by
  change Safe I p fails R (x.bind f) hold s ↔ _
  induction x generalizing hold s with
  | done r =>
    cases r with
    | ok a => rfl
    | error e => rfl
  | panic => rfl
  | act g k ih => exact ih s
  | wait k ih =>
    constructor
    · rintro ⟨h', hI, hk⟩
      exact ⟨h', hI, fun a hold' s' hp hI' => (ih a).1 (hk a hold' s' hp hI')⟩
    · rintro ⟨h', hI, hk⟩
      exact ⟨h', hI, fun a hold' s' hp hI' => (ih a).2 (hk a hold' s' hp hI')⟩

@[simp] theorem safe_pure {a : α} :
    Safe I p fails Q (pure a : Coop σ A ε α) hold s ↔ Q (.ok a) hold s := Iff.rfl

@[simp] theorem safe_throw {e : ε} :
    Safe I p fails Q (throw e : Coop σ A ε α) hold s ↔ Q (.error e) hold s := Iff.rfl

theorem safe_atomic {y : Code σ ε α} (h : y s = some (r, t)) :
    Safe I p fails Q (atomic y : Coop σ A ε α) hold s ↔ Q r hold t := by
  change Safe I p fails Q ((y s).elim panic fun q => done q.1) hold ((y s).elim s Prod.snd) ↔ _
  rw [h]
  rfl

theorem safe_atomic_bind {y : Code σ ε α} {a : α} (h : y s = some (.ok a, t)) :
    Safe I p fails R (atomic y >>= f) hold s ↔ Safe I p fails R (f a) hold t :=
  safe_bind.trans (safe_atomic h)

theorem safe_atomic_throw {y : Code σ ε α} {e : ε} (h : y s = some (.error e, t)) :
    Safe I p fails R (atomic y >>= f) hold s ↔ R (.error e) hold t :=
  safe_bind.trans (safe_atomic h)

@[simp] theorem safe_get_bind {f : σ → Coop σ A ε β} :
    Safe I p fails R (get >>= f) hold s ↔ Safe I p fails R (f s) hold s := Iff.rfl

@[simp] theorem safe_modify_bind {g : σ → σ} {f : Unit → Coop σ A ε β} :
    Safe I p fails R (modify g >>= f) hold s ↔ Safe I p fails R (f ()) hold (g s) := Iff.rfl

@[simp] theorem safe_modify {g : σ → σ} {R : Except ε Unit → (P → H) → σ → Prop} :
    Safe I p fails R (modify g : Coop σ A ε Unit) hold s ↔ R (.ok ()) hold (g s) := Iff.rfl

theorem safe_assert_bind {c : Prop} [Decidable c] {f : Unit → Coop σ A ε β} (h : c) :
    Safe I p fails R (assert c >>= f) hold s ↔ Safe I p fails R (f ()) hold s :=
  safe_atomic_bind (if_pos h)

theorem safe_attempt_bind {f : Except ε α → Coop σ A ε' β}
    {R : Except ε' β → (P → H) → σ → Prop} :
    Safe I p fails R (x.attempt >>= f) hold s ↔
      Safe I p fails (fun r => Safe I p fails R (f r)) x hold s := by
  change Safe I p fails R (x.attempt.bind f) hold s ↔ _
  induction x generalizing hold s with
  | done r => rfl
  | panic => rfl
  | act g k ih => exact ih s
  | wait k ih =>
    constructor
    · rintro ⟨h', hI, hk⟩
      exact ⟨h', hI, fun a hold' s' hp hI' => (ih a).1 (hk a hold' s' hp hI')⟩
    · rintro ⟨h', hI, hk⟩
      exact ⟨h', hI, fun a hold' s' hp hI' => (ih a).2 (hk a hold' s' hp hI')⟩

/-- Where it waits, nothing happens that matters here. -/
theorem safe_ask_bind {f : A → Coop σ A ε β} {h : H} (hI : I (update hold p h) s)
    (hf : ∀ a hold' s', hold' p = h → I hold' s' → Safe I p fails R (f a) hold' s') :
    Safe I p fails R (ask >>= f) hold s := ⟨h, hI, hf⟩

variable (I p fails) in
/-- Code that has been switched away from, and will keep the invariant `I` when it goes on. -/
def Resting (idle : H) (hold : P → H) : Coop σ A ε α → Prop
  | done _ => hold p = idle
  | wait k => ∀ a hold' s', hold' p = hold p → I hold' s' →
      Safe I p fails (fun _ hold s => I (update hold p idle) s) (k a) hold' s'
  | _ => False

/-- **What safe code does in one turn.** -/
theorem Safe.turn {idle : H}
    (h : Safe I p fails (fun _ hold s => I (update hold p idle) s) x hold s) :
    (x.run s = none ∧ fails) ∨
      ∃ y t h', x.run s = some (y, t) ∧ I (update hold p h') t ∧
        Resting I p fails idle (update hold p h') y := by
  induction x generalizing s with
  | done r => exact .inr ⟨_, _, idle, rfl, h, update_self ..⟩
  | panic => exact .inl ⟨rfl, h⟩
  | act g k ih => exact ih s h
  | wait k ih =>
    obtain ⟨h', hI, hk⟩ := h
    refine .inr ⟨_, _, h', rfl, hI, fun a hold' s' hp hI' => hk a hold' s' ?_ hI'⟩
    rw [hp, update_self]

theorem Resting.congr {idle : H} {hold' : P → H} (h : Resting I p fails idle hold x)
    (hp : hold' p = hold p) : Resting I p fails idle hold' x := by
  cases x with
  | done r => exact hp.trans h
  | wait k => exact fun a hold'' s' hp' => h a hold'' s' (hp'.trans hp)
  | _ => exact h

end

end Coop

/-! ## Code on a part of the state -/

namespace Code

variable {σ τ ε ε' α β : Type} {part : τ → σ} {put : τ → σ → τ}

/-- A part of the state, and how it is replaced. -/
structure Lens (part : τ → σ) (put : τ → σ → τ) : Prop where
  part_put : ∀ s u, part (put s u) = u
  put_part : ∀ s, put s (part s) = s
  put_put : ∀ s u v, put (put s u) v = put s v

namespace Lens

variable (h : Lens part put)

include h

theorem on_pure (b : β) : Code.on part put (pure b : Code σ ε β) = pure b := by
  funext s
  change some (Except.ok b, put s (part s)) = some (.ok b, s)
  rw [h.put_part]

theorem on_throw (e : ε) : Code.on part put (throw e : Code σ ε β) = throw e := by
  funext s
  change some (Except.error e, put s (part s)) = some (.error e, s)
  rw [h.put_part]

theorem on_bind (x : Code σ ε α) (f : α → Code σ ε β) :
    Code.on part put (x >>= f) = Code.on part put x >>= fun b => Code.on part put (f b) := by
  funext s
  rcases hx : x (part s) with _ | ⟨e | b, u⟩
  · rw [bind_none (show Code.on part put x s = none by rw [Code.on, hx]; rfl)]
    rw [Code.on, bind_none hx]
    rfl
  · rw [bind_error (on_run hx), Code.on, bind_error hx]
    rfl
  · rw [bind_ok (on_run hx), Code.on, bind_ok hx, Code.on, h.part_put]
    simp only [h.put_put]

theorem on_assert (c : Prop) [Decidable c] :
    Code.on part put (assert c : Code σ ε Unit) = assert c := by
  funext s
  rw [Code.on, assert, assert]
  split
  · change some (_, put s (part s)) = _
    rw [h.put_part]
  · rfl

end Lens

/-- `assert(c)` stops, or the code goes on. -/
theorem assert_bind_eq (c : Prop) [Decidable c] (f : Unit → Code σ ε β) (s : σ) :
    (assert c >>= f) s = if c then f () s else none := by
  by_cases h : c
  · rw [assert_bind h, if_pos h]
  · rw [if_neg h]
    exact bind_none (if_neg h)

theorem on_modify (g : σ → σ) : Code.on part put (modify g : Code σ ε Unit) =
    modify fun s => put s (g (part s)) := rfl

theorem on_attempt (x : Code σ ε α) : Code.on part put (attempt x : Code σ ε' _) =
    attempt (Code.on part put x) := by
  funext s
  simp only [Code.on, attempt, Option.map_map]
  rfl

end Code

/-! ## Crews -/

/-- Processes `P` that may call the operations `O`. -/
structure Crew (P O σ A ε : Type) where
  Init : σ → Prop
  /-- The process may call the operation now; the first argument says who is idle. -/
  May : (P → Prop) → σ → P → O → Prop
  code : P → O → Coop σ A ε Unit

/-- What the processes have still to do, and their common state. -/
structure Team (P σ A ε : Type) where
  code : P → Coop σ A ε Unit
  mem : σ

def Team.Idle {P σ A ε : Type} (t : Team P σ A ε) (p : P) : Prop := (t.code p).isDone = true

inductive Turn (P O A : Type) where
  | call (p : P) (o : O)
  | answer (p : P) (a : A)

namespace Crew

variable {P O σ A ε H : Type} [DecidableEq P] (C : Crew P O σ A ε)

/-- The process `p` runs the code until it waits, or is done. -/
def turn (t : Team P σ A ε) (p : P) (x : Coop σ A ε Unit) : Option (Team P σ A ε) :=
  (x.run t.mem).map fun q => ⟨update t.code p q.1, q.2⟩

def Legal (t : Team P σ A ε) : Turn P O A → Prop
  | .call p o => t.Idle p ∧ C.May t.Idle t.mem p o
  | .answer p _ => (t.code p).isWait = true

def step (t : Team P σ A ε) : Turn P O A → Option (Team P σ A ε)
  | .call p o => turn t p (C.code p o)
  | .answer p a => turn t p ((t.code p).resume a)

/-- At first, nobody has anything to do. -/
def machine : Machine (Team P σ A ε) (Turn P O A) where
  Init t := C.Init t.mem ∧ ∀ p, t.Idle p
  Legal := C.Legal
  step := C.step

/-- Every call keeps the invariant `I`. -/
structure Sound (I : (P → H) → σ → Prop) (idle : H) (fails : Prop) : Prop where
  init : ∀ s, C.Init s → I (fun _ => idle) s
  code : ∀ J p o hold s, C.May J s p o → I hold s → hold p = idle → (∀ q, J q → hold q = idle) →
    (C.code p o).Safe I p fails (fun _ hold s => I (update hold p idle) s) hold s

variable {C} {I : (P → H) → σ → Prop} {idle : H} {fails : Prop} {t t' : Team P σ A ε}
  {i : Turn P O A}

/-- The invariant holds, and every process that waits will keep it. -/
structure Kept (I : (P → H) → σ → Prop) (idle : H) (fails : Prop) (t : Team P σ A ε)
    (hold : P → H) : Prop where
  inv : I hold t.mem
  resting : ∀ p, (t.code p).Resting I p fails idle hold

theorem Kept.holds_idle {hold : P → H} (h : Kept I idle fails t hold) {p : P} (hp : t.Idle p) :
    hold p = idle := by
  have hr := h.resting p
  unfold Team.Idle at hp
  cases hx : t.code p with
  | done r =>
    rw [hx] at hr
    exact hr
  | _ =>
    rw [hx] at hp
    cases hp

theorem turn_kept {hold : P → H} {p : P} {x : Coop σ A ε Unit} (h : Kept I idle fails t hold)
    (hx : x.Safe I p fails (fun _ hold s => I (update hold p idle) s) hold t.mem) :
    (turn t p x = none ∧ fails) ∨
      ∃ t' hold', turn t p x = some t' ∧ Kept I idle fails t' hold' := by
  obtain ⟨hno, hf⟩ | ⟨y, s, h', hrun, hI, hrest⟩ := hx.turn
  · exact .inl ⟨by rw [turn, hno]; rfl, hf⟩
  · refine .inr ⟨⟨update t.code p y, s⟩, update hold p h', by rw [turn, hrun]; rfl, hI, fun q => ?_⟩
    change Coop.Resting I q fails idle _ (update t.code p y q)
    by_cases hq : q = p
    · subst hq
      rw [update_self]
      exact hrest
    · rw [update_of_ne hq]
      exact (h.resting q).congr (update_of_ne hq ..)

theorem step_kept (hC : C.Sound I idle fails) {hold : P → H} (h : Kept I idle fails t hold)
    (hl : C.Legal t i) :
    (C.step t i = none ∧ fails) ∨
      ∃ t' hold', C.step t i = some t' ∧ Kept I idle fails t' hold' := by
  cases i with
  | call p o =>
    exact turn_kept h (hC.code t.Idle p o hold t.mem hl.2 h.inv (h.holds_idle hl.1)
      fun q => h.holds_idle)
  | answer p a =>
    have hr := h.resting p
    change (t.code p).isWait = true at hl
    cases hx : t.code p with
    | wait k =>
      rw [hx] at hr
      have hk := turn_kept h (hr a hold t.mem rfl h.inv)
      rwa [step, hx]
    | _ =>
      rw [hx] at hl
      cases hl

/-- **The invariant** holds in every state that is reached. -/
theorem kept (hC : C.Sound I idle fails) (h : C.machine.Reach t) :
    ∃ hold, Kept I idle fails t hold := by
  refine Machine.Reach.preserved (I := fun t => ∃ hold, Kept I idle fails t hold) h ?_ ?_
  · intro t ht
    refine ⟨fun _ => idle, hC.init _ ht.1, fun p => ?_⟩
    have hp := ht.2 p
    unfold Team.Idle at hp
    cases hx : t.code p with
    | done r => rfl
    | _ =>
      rw [hx] at hp
      cases hp
  · rintro t i t' ⟨hold, hk⟩ hl hst
    obtain ⟨hno, -⟩ | ⟨u, hold', hu, hk'⟩ := step_kept hC hk hl
    · cases hno.symm.trans hst
    · cases hu.symm.trans hst
      exact ⟨hold', hk'⟩

/-- **No step fails**, if no call can panic. -/
theorem goes_on (hC : C.Sound I idle False) (h : C.machine.Reach t) (hl : C.machine.Legal t i) :
    ∃ t', C.machine.step t i = some t' := by
  obtain ⟨hold, hk⟩ := kept hC h
  obtain ⟨-, hf⟩ | ⟨t', -, ht', -⟩ := step_kept hC hk hl
  · exact hf.elim
  · exact ⟨t', ht'⟩

end Crew
