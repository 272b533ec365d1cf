/-
  `kern/sync/check_sync.c`: the dining philosophers, with semaphores and with a monitor.

  A philosopher's place is its next statement; every statement on shared data is one step, and a
  `down` is two when it sleeps.  The loop `while (iter++ < TIMES)` is not bounded here: a
  philosopher takes the forks any number of times.
-/
import Ucore.Sync.Monitor
import Ucore.Lib.Dining
import Ucore.Lib.Machine

namespace Ucore.Philosophers

open Dining

abbrev N : ℕ := 5

/-- `LEFT` and `RIGHT` -/
def left (i : Fin N) : Fin N := ⟨(i.val + N - 1) % N, Nat.mod_lt _ (by decide)⟩
def right (i : Fin N) : Fin N := ⟨(i.val + 1) % N, Nat.mod_lt _ (by decide)⟩

/-- The condition of `phi_test_sema` and `phi_test_condvar`. -/
def phiTest (state : Fin N → Mood) (i : Fin N) : Bool :=
  state i = .hungry ∧ state (left i) ≠ .eating ∧ state (right i) ≠ .eating

/-- The three calls of `phi_test_*`: for oneself in `phi_take_forks_*`, and for the left and the
    right neighbour in `phi_put_forks_*`. -/
inductive Call where
  | self
  | left
  | right
  deriving DecidableEq

def Call.who (i : Fin N) : Call → Fin N
  | self => i
  | left => Philosophers.left i
  | right => Philosophers.right i

/-! ## Semaphores -/

/-- `mutex` and the semaphores `s` -/
inductive PhiSem where
  | mutex
  | s (i : Fin N)
  deriving DecidableEq

inductive SemaPlace where
  /-- Before `down(&mutex)` of `phi_take_forks_sema`. -/
  | thinking
  | takeAsleep
  /-- Before `state_sema[i] = HUNGRY`. -/
  | takeSet
  /-- Before the `if` of `phi_test_sema`. -/
  | test (c : Call)
  /-- Before `state_sema[..] = EATING`. -/
  | eat (c : Call)
  /-- Before `up(&s[..])`. -/
  | upS (c : Call)
  /-- Before `up(&mutex)` of `phi_take_forks_sema`. -/
  | takeUp
  /-- Before `down(&s[i])`. -/
  | own
  | ownAsleep
  /-- `phi_take_forks_sema` has returned; before `down(&mutex)` of `phi_put_forks_sema`. -/
  | eating
  | putAsleep
  /-- Before `state_sema[i] = THINKING`. -/
  | putSet
  /-- Before `up(&mutex)` of `phi_put_forks_sema`. -/
  | putUp
  deriving DecidableEq

/-- The place after a call of `phi_test_sema`. -/
def Call.semaNext : Call → SemaPlace
  | self => .takeUp
  | left => .test right
  | right => .putUp

structure PhiSema where
  kern : Kern PhiSem (Fin N)
  stateSema : Fin N → Mood
  place : Fin N → SemaPlace

namespace PhiSema

def goto (q : PhiSema) (i : Fin N) (x : SemaPlace) : PhiSema :=
  { q with place := Function.update q.place i x }

def setState (q : PhiSema) (i : Fin N) (a : Mood) : PhiSema :=
  { q with stateSema := Function.update q.stateSema i a }

/-- `down(s)`: on to `awake` when it returns at once, else to `asleep`. -/
def down (q : PhiSema) (s : PhiSem) (i : Fin N) (awake asleep : SemaPlace) : Option PhiSema := do
  let (k, returned) ← q.kern.down s i
  some ({ q with kern := k }.goto i (if returned then awake else asleep))

def downResume (q : PhiSema) (s : PhiSem) (i : Fin N) (awake : SemaPlace) : Option PhiSema := do
  let k ← q.kern.downResume s i
  some ({ q with kern := k }.goto i awake)

def up (q : PhiSema) (s : PhiSem) (i : Fin N) (x : SemaPlace) : Option PhiSema := do
  let k ← q.kern.up s
  some ({ q with kern := k }.goto i x)

/-- The next statement of philosopher `i`. -/
def step (q : PhiSema) (i : Fin N) : Option PhiSema :=
  match q.place i with
  | .thinking => q.down .mutex i .takeSet .takeAsleep
  | .takeAsleep => q.downResume .mutex i .takeSet
  | .takeSet => some ((q.setState i .hungry).goto i (.test .self))
  | .test c => some (q.goto i (if phiTest q.stateSema (c.who i) then .eat c else c.semaNext))
  | .eat c => some ((q.setState (c.who i) .eating).goto i (.upS c))
  | .upS c => q.up (.s (c.who i)) i c.semaNext
  | .takeUp => q.up .mutex i .own
  | .own => q.down (.s i) i .eating .ownAsleep
  | .ownAsleep => q.downResume (.s i) i .eating
  | .eating => q.down .mutex i .putSet .putAsleep
  | .putAsleep => q.downResume .mutex i .putSet
  | .putSet => some ((q.setState i .thinking).goto i (.test .left))
  | .putUp => q.up .mutex i .thinking

end PhiSema

/-- The `down` a philosopher is asleep in, or on its way out of. -/
def SemaPlace.sem (i : Fin N) : SemaPlace → Option PhiSem
  | takeAsleep | putAsleep => some .mutex
  | ownAsleep => some (.s i)
  | _ => none

/-- `sem_init` of the semaphores in `check_sync`, and the philosophers it starts. -/
def PhiSema.init (k : Kern PhiSem (Fin N)) : PhiSema where
  kern := (List.finRange N).foldl (fun k i => k.semInit (.s i) 0) (k.semInit .mutex 1)
  stateSema := fun _ => .thinking
  place := fun _ => .thinking

/-- The philosophers with semaphores; one that sleeps goes on when it has been woken. -/
def PhiSema.machine : Machine PhiSema (Fin N) where
  Init q := ∃ k : Kern PhiSem (Fin N), (∀ i, k.inDown i = none) ∧ q = PhiSema.init k
  Legal q i := (q.place i).sem i ≠ none → (q.kern.proc i).state = .runnable
  step := PhiSema.step

/-! ## The monitor -/

inductive CondPlace where
  /-- Before `down(&mtp->mutex)` of `phi_take_forks_condvar`. -/
  | thinking
  /-- Before `state_condvar[i] = HUNGRY`. -/
  | takeSet
  /-- Before the `if` of `phi_test_condvar`. -/
  | test (c : Call)
  /-- Before `state_condvar[..] = EATING`. -/
  | eat (c : Call)
  /-- Before `cond_signal(&mtp->cv[..])`. -/
  | signal (c : Call)
  /-- Before `if (state_condvar[i] == HUNGRY)`. -/
  | check
  /-- Before `cond_wait(&mtp->cv[i])`. -/
  | wait
  /-- Before the exit protocol of `phi_take_forks_condvar`. -/
  | takeLeave
  /-- `phi_take_forks_condvar` has returned, or is in the exit protocol; before
      `down(&mtp->mutex)` of `phi_put_forks_condvar`. -/
  | eating
  /-- Before `state_condvar[i] = THINKING`. -/
  | putSet
  /-- Before the exit protocol of `phi_put_forks_condvar`. -/
  | putLeave
  deriving DecidableEq

/-- The place after a call of `phi_test_condvar`. -/
def Call.condNext : Call → CondPlace
  | self => .check
  | left => .test right
  | right => .putLeave

structure PhiCondvar where
  mon : Monitor N (Fin N)
  stateCondvar : Fin N → Mood
  place : Fin N → CondPlace

namespace PhiCondvar

def goto (q : PhiCondvar) (i : Fin N) (x : CondPlace) : PhiCondvar :=
  { q with place := Function.update q.place i x }

def setState (q : PhiCondvar) (i : Fin N) (a : Mood) : PhiCondvar :=
  { q with stateCondvar := Function.update q.stateCondvar i a }

/-- Calls an operation of the monitor; the philosopher is at `x` when it returns. -/
def call (q : PhiCondvar) (i : Fin N) (op : MonOp N (Fin N)) (x : CondPlace) :
    Option PhiCondvar := do
  let m ← q.mon.step op
  some ({ q with mon := m }.goto i x)

/-- The next statement of philosopher `i`, in its own code. -/
def stmt (q : PhiCondvar) (i : Fin N) : Option PhiCondvar :=
  match q.place i with
  | .thinking => q.call i (.enter i) .takeSet
  | .takeSet => some ((q.setState i .hungry).goto i (.test .self))
  | .test c => some (q.goto i (if phiTest q.stateCondvar (c.who i) then .eat c else c.condNext))
  | .eat c => some ((q.setState (c.who i) .eating).goto i (.signal c))
  | .signal c => q.call i (.condSignal i (c.who i)) c.condNext
  | .check => some (q.goto i (if q.stateCondvar i = .hungry then .wait else .takeLeave))
  | .wait => q.call i (.condWait i i) .takeLeave
  | .takeLeave => q.call i (.leave i) .eating
  | .eating => q.call i (.enter i) .putSet
  | .putSet => some ((q.setState i .thinking).goto i (.test .left))
  | .putLeave => q.call i (.leave i) .thinking

/-- The next statement of philosopher `i`, which may be one of the monitor's. -/
def step (q : PhiCondvar) (i : Fin N) : Option PhiCondvar :=
  match q.mon.pc i with
  | .out | .body => q.stmt i
  | _ => q.call i (.run i) (q.place i)

/-- The philosophers with a monitor made by `monitor_init`. -/
def machine : Machine PhiCondvar (Fin N) where
  Init q := ∃ (k : Kern (MonSem N) (Fin N)) (m : Monitor N (Fin N)), (∀ i, k.inDown i = none) ∧
    Monitor.monitorInit k = some m ∧ q = ⟨m, fun _ => .thinking, fun _ => .thinking⟩
  Legal q i := (q.mon.pc i).sem ≠ none → (q.mon.kern.proc i).state = .runnable
  step := PhiCondvar.step

end PhiCondvar

/-! ## The table -/

/-- Who sits next to whom. -/
def table : SimpleGraph (Fin N) where
  Adj i j := j = left i ∨ j = right i
  symm := ⟨by decide⟩
  loopless := ⟨by decide⟩

theorem free_iff {f : Fin N → Mood} {i : Fin N} :
    Free table f i ↔ f (left i) ≠ .eating ∧ f (right i) ≠ .eating :=
  ⟨fun h => ⟨h _ (Or.inl rfl), h _ (Or.inr rfl)⟩, fun h j hj => by
    obtain rfl | rfl := hj
    exacts [h.1, h.2]⟩

theorem phiTest_iff {f : Fin N → Mood} {i : Fin N} :
    phiTest f i = true ↔ f i = .hungry ∧ Free table f i := by
  rw [phiTest, decide_eq_true_iff, free_iff]

namespace Call

variable {i : Fin N}

theorem who_ne {c : Call} (h : c ≠ .self) : c.who i ≠ i := by
  cases c with
  | self => exact absurd rfl h
  | left => revert i; decide
  | right => revert i; decide

/-- The philosophers the calls of `phi_test_*`, from this one on, are for. -/
def todo (i : Fin N) : Call → Set (Fin N)
  | self => {i}
  | left => {Philosophers.left i, Philosophers.right i}
  | right => {Philosophers.right i}

/-- The philosophers the calls behind this one are for. -/
def rest (i : Fin N) : Call → Set (Fin N)
  | left => {Philosophers.right i}
  | _ => ∅

theorem todo_diff (c : Call) : c.todo i \ {c.who i} ⊆ c.rest i := by
  cases c <;> rintro j ⟨h1, h2⟩
  · exact absurd h1 h2
  · exact h1.resolve_left h2
  · exact absurd h1 h2

theorem neighbours_todo : table.neighborSet i ⊆ Call.left.todo i := fun _ h => h

end Call

/-- **The philosophers dine**: neighbours do not eat together, whoever has taken its forks eats,
    and when nobody is in the critical section, a hungry philosopher has a neighbour that eats. -/
structure Dined (state : Fin N → Mood) (taken active : Fin N → Prop) : Prop where
  apart : ∀ i, state i = .eating → state (left i) ≠ .eating ∧ state (right i) ≠ .eating
  taken : ∀ i, taken i → state i = .eating
  served : (∀ i, ¬ active i) → ∀ i, state i = .hungry →
    state (left i) = .eating ∨ state (right i) = .eating

theorem dined {f : Fin N → Mood} {w : Fin N → Set (Fin N)} {taken active : Fin N → Prop}
    (ha : Apart table f) (ht : ∀ i, taken i → f i = .eating) (hs : Served table f w)
    (hw : ∀ i j, i ∈ w j → ∃ t, active t) : Dined f taken active where
  apart i hi := free_iff.1 (ha i hi)
  taken := ht
  served hna i hi := by
    by_contra hne
    push Not at hne
    obtain ⟨j, hj⟩ := hs i hi (free_iff.2 hne)
    obtain ⟨t, ht⟩ := hw i j hj
    exact hna t ht

end Ucore.Philosophers
