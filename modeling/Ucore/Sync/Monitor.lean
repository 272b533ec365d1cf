/-
  `kern/sync/monitor.c`: Hoare monitors built from semaphores.

  The threads `T` share one monitor with `n` condition variables.  A thread's place in its monitor
  procedure is its `Pc`; between two places lies one statement of `cond_signal`, `cond_wait` or the
  exit protocol, so that the threads interleave between any two statements.  `down` is two steps
  when it sleeps.  The counters are not bounded: they count threads.
-/
import Ucore.Sync.Sem
import Mathlib.Data.List.FinRange

namespace Ucore

set_option linter.unusedSectionVars false

/-- The semaphores of a monitor. -/
inductive MonSem (n : ℕ) where
  | mutex
  | next
  | cv (c : Fin n)
  deriving DecidableEq

/-- Where a thread is. -/
inductive Pc (n : ℕ) where
  | out
  /-- Asleep in `down(&mutex)`. -/
  | entering
  /-- In a monitor procedure, outside `cond_signal` and `cond_wait`. -/
  | body
  /-- Before `next_count++`. -/
  | sigInc (c : Fin n)
  /-- Before `up(&cvp->sem)`. -/
  | sigUp (c : Fin n)
  /-- Before `down(&next)`. -/
  | sigDown (c : Fin n)
  | sigAsleep (c : Fin n)
  /-- Before `next_count--`. -/
  | sigDec (c : Fin n)
  /-- Before `if (next_count > 0)`. -/
  | waitTest (c : Fin n)
  /-- Before `up(&next)` or `up(&mutex)`. -/
  | waitUp (c : Fin n) (next : Bool)
  /-- Before `down(&cvp->sem)`. -/
  | waitDown (c : Fin n)
  | waitAsleep (c : Fin n)
  /-- Before `count--`. -/
  | waitDec (c : Fin n)
  /-- Before `up(&next)` or `up(&mutex)` of the exit protocol. -/
  | exitUp (next : Bool)
  deriving DecidableEq

/-- `monitor_t` and the threads that use it. -/
structure Monitor (n : ℕ) (T : Type) where
  kern : Kern (MonSem n) T
  nextCount : ℤ
  count : Fin n → ℤ
  pc : T → Pc n

inductive MonOp (n : ℕ) (T : Type) where
  /-- Calls a monitor procedure: `down(&mutex)`. -/
  | enter (t : T)
  | condSignal (t : T) (c : Fin n)
  | condWait (t : T) (c : Fin n)
  /-- Comes to the exit protocol. -/
  | leave (t : T)
  /-- Goes on with `cond_signal`, `cond_wait` or the exit protocol. -/
  | run (t : T)

variable {n : ℕ} {T : Type} [DecidableEq T]

namespace Pc

/-- The `down` the thread is asleep in, or on its way out of. -/
def sem : Pc n → Option (MonSem n)
  | entering => some .mutex
  | sigAsleep _ => some .next
  | waitAsleep c => some (.cv c)
  | _ => none

end Pc

namespace Monitor

def goto (m : Monitor n T) (t : T) (pc : Pc n) : Monitor n T :=
  { m with pc := Function.update m.pc t pc }

/-- `down(s)`: on to `awake` when it returns at once, else to `asleep`. -/
def down (m : Monitor n T) (s : MonSem n) (t : T) (awake asleep : Pc n) :
    Option (Monitor n T) := do
  let (k, returned) ← m.kern.down s t
  some ({ m with kern := k }.goto t (if returned then awake else asleep))

/-- The return of a `down(s)` that slept. -/
def downResume (m : Monitor n T) (s : MonSem n) (t : T) (awake : Pc n) :
    Option (Monitor n T) := do
  let k ← m.kern.downResume s t
  some ({ m with kern := k }.goto t awake)

def up (m : Monitor n T) (s : MonSem n) (t : T) (pc : Pc n) : Option (Monitor n T) := do
  let k ← m.kern.up s
  some ({ m with kern := k }.goto t pc)

/-- `up(&next)` when `next_count > 0`, else `up(&mutex)`. -/
def passOn (next : Bool) : MonSem n := if next then .next else .mutex

/-- `monitor_init`; all threads are outside. -/
def monitorInit (k : Kern (MonSem n) T) : Option (Monitor n T) :=
  if n = 0 then none
  else
    let k := (k.semInit .mutex 1).semInit .next 0
    some {
      kern := (List.finRange n).foldl (fun k i => k.semInit (.cv i) 0) k
      nextCount := 0
      count := fun _ => 0
      pc := fun _ => .out }

def step (m : Monitor n T) : MonOp n T → Option (Monitor n T)
  | .enter t => m.down .mutex t .body .entering
  | .condSignal t c => some (m.goto t (if 0 < m.count c then .sigInc c else .body))
  | .condWait t c =>
    some ({ m with count := Function.update m.count c (m.count c + 1) }.goto t (.waitTest c))
  | .leave t => some (m.goto t (.exitUp (0 < m.nextCount)))
  | .run t =>
    match m.pc t with
    | .out | .body => some m
    | .entering => m.downResume .mutex t .body
    | .sigInc c => some ({ m with nextCount := m.nextCount + 1 }.goto t (.sigUp c))
    | .sigUp c => m.up (.cv c) t (.sigDown c)
    | .sigDown c => m.down .next t (.sigDec c) (.sigAsleep c)
    | .sigAsleep c => m.downResume .next t (.sigDec c)
    | .sigDec _ => some ({ m with nextCount := m.nextCount - 1 }.goto t .body)
    | .waitTest c => some (m.goto t (.waitUp c (0 < m.nextCount)))
    | .waitUp c next => m.up (passOn next) t (.waitDown c)
    | .waitDown c => m.down (.cv c) t (.waitDec c) (.waitAsleep c)
    | .waitAsleep c => m.downResume (.cv c) t (.waitDec c)
    | .waitDec c =>
      some ({ m with count := Function.update m.count c (m.count c - 1) }.goto t .body)
    | .exitUp next => m.up (passOn next) t .out

/-- Procedures are entered from outside, conditions used inside, and a thread that sleeps goes on
    when it has been woken. -/
def Legal (m : Monitor n T) : MonOp n T → Prop
  | .enter t => m.pc t = .out
  | .condSignal t _ | .condWait t _ | .leave t => m.pc t = .body
  | .run t => m.pc t ≠ .out ∧ m.pc t ≠ .body ∧
      ((m.pc t).sem ≠ none → (m.kern.proc t).state = .runnable)

instance (m : Monitor n T) : ∀ op, Decidable (m.Legal op)
  | .enter _ | .condSignal _ _ | .condWait _ _ | .leave _ => inferInstanceAs (Decidable (_ = _))
  | .run _ => inferInstanceAs (Decidable (_ ∧ _ ∧ (_ → _)))

end Monitor

end Ucore
