/-
  The stride scheduler of lab 6 (`kern/schedule/default_sched_stride.c`), with the parts of
  `sched.c` and `proc.c` that use it.

  Processes are elements of `P`.  The run pool is a skew heap of processes, compared by their
  strides, which are 32 bits wide.  `total` and `asked` are not in the source: the stride that a
  process has accumulated, and the last argument it gave to `lab6_set_priority`.  A function
  returns `none` if an assertion fails.
-/
import Ucore.Lib.Machine
import Ucore.Lib.SkewHeap
import Mathlib.Data.BitVec

namespace Ucore.Stride

inductive ProcState where
  | uninit
  | sleeping
  | runnable
  | zombie
  deriving DecidableEq

structure Proc where
  state : ProcState
  lab6Stride : BitVec 32
  lab6Priority : BitVec 32
  timeSlice : ℤ
  needResched : Bool
  onRq : Bool

structure Sys (P : Type) where
  proc : P → Proc
  runPool : SkewHeap P
  procNum : ℤ
  maxTimeSlice : ℤ
  current : P
  idleproc : P
  total : P → ℕ
  asked : P → Option (BitVec 32)

def bigStride : BitVec 32 := 1#32 <<< 30

/-- The unsigned division of the machine, which has a result for every divisor. -/
def divu (a b : BitVec 32) : BitVec 32 := if b = 0 then BitVec.allOnes 32 else a / b

namespace Sys

variable {P : Type} [DecidableEq P] (k : Sys P)

def setProc (p : P) (f : Proc → Proc) : Sys P :=
  { k with proc := Function.update k.proc p (f (k.proc p)) }

/-! ## The scheduling class -/

/-- `proc_stride_comp_f` -/
def comp (p q : P) : ℤ :=
  let c := ((k.proc p).lab6Stride - (k.proc q).lab6Stride).toInt
  if c > 0 then 1 else if c = 0 then 0 else -1

/-- `stride_enqueue` -/
def enqueue (p : P) : Sys P :=
  { k.setProc p fun pr => { pr with
      timeSlice := if pr.timeSlice = 0 ∨ pr.timeSlice > k.maxTimeSlice then k.maxTimeSlice
        else pr.timeSlice
      onRq := true } with
    runPool := k.runPool.insert k.comp p
    procNum := k.procNum + 1 }

/-- `stride_dequeue` -/
def dequeue (p : P) : Option (Sys P) :=
  if (k.proc p).onRq ∧ k.procNum > 0 then
    some { k with runPool := k.runPool.remove k.comp p, procNum := k.procNum - 1 }
  else none

/-- What `stride_pick_next` adds to the stride of `p`. -/
def increment (p : P) : BitVec 32 := divu bigStride (k.proc p).lab6Priority

/-- `stride_pick_next` -/
def pickNext : Option P × Sys P :=
  match k.runPool.root with
  | none => (none, k)
  | some p => (some p,
      { k.setProc p fun pr => { pr with lab6Stride := pr.lab6Stride + k.increment p } with
        total := Function.update k.total p (k.total p + (k.increment p).toNat) })

/-- `stride_proc_tick` -/
def procTick (p : P) : Sys P :=
  k.setProc p fun pr =>
    let timeSlice := if pr.timeSlice > 0 then pr.timeSlice - 1 else pr.timeSlice
    { pr with timeSlice, needResched := if timeSlice = 0 then true else pr.needResched }

/-! ## Scheduling -/

/-- `sched_class_enqueue` -/
def classEnqueue (p : P) : Sys P := if p ≠ k.idleproc then k.enqueue p else k

/-- `sched_class_proc_tick` of the current process. -/
def tick : Sys P :=
  if k.current ≠ k.idleproc then k.procTick k.current
  else k.setProc k.current fun pr => { pr with needResched := true }

def wakeupProc (p : P) : Option (Sys P) :=
  if (k.proc p).state = .zombie then none
  else if (k.proc p).state ≠ .runnable then
    let k := k.setProc p fun pr => { pr with state := .runnable }
    some (if p ≠ k.current then k.classEnqueue p else k)
  else some k

/-- The first half of `schedule`: a process that can go on is put back. -/
def putBack : Sys P :=
  let k := k.setProc k.current fun pr => { pr with needResched := false }
  if (k.proc k.current).state = .runnable then k.classEnqueue k.current else k

/-- The second half of `schedule`. -/
def switch : Option (Sys P) :=
  match k.pickNext with
  | (none, k) => some { k with current := k.idleproc }
  | (some next, k) => (k.dequeue next).map fun k => { k with current := next }

def schedule : Option (Sys P) := k.putBack.switch

/-! ## Processes -/

/-- `alloc_proc` -/
def allocProc : Proc where
  state := .uninit
  lab6Stride := 0
  lab6Priority := 0
  timeSlice := 0
  needResched := false
  onRq := false

/-- `do_fork`; the priority of `p` is what `alloc_proc` has set it to, unless someone changes it. -/
def doFork (p : P) (priority : BitVec 32) : Option (Sys P) :=
  wakeupProc { k with
    proc := Function.update k.proc p { allocProc with lab6Priority := priority }
    total := Function.update k.total p 0
    asked := Function.update k.asked p none } p

def lab6SetPriority (priority : BitVec 32) : Sys P :=
  { k.setProc k.current fun pr => { pr with
      lab6Priority := if priority = 0 then 1 else priority } with
    asked := Function.update k.asked k.current (some priority) }

/-- The current process sleeps (`do_wait`) or exits (`do_exit`). -/
def stop (state : ProcState) : Sys P := k.setProc k.current fun pr => { pr with state }

inductive Op (P : Type) where
  | fork (p : P) (priority : BitVec 32)
  | wakeup (p : P)
  | schedule
  | sleep
  | exit
  | setPriority (priority : BitVec 32)
  | tick
  | reap (p : P)

/-- The state in which `stride_pick_next` is called, if it is. -/
def beforePick : Op P → Option (Sys P)
  | .schedule => some k.putBack
  | .sleep => some (k.stop .sleeping).putBack
  | .exit => some (k.stop .zombie).putBack
  | _ => none

def step : Op P → Option (Sys P)
  | .fork p priority => k.doFork p priority
  | .wakeup p => k.wakeupProc p
  | .schedule => k.schedule
  | .sleep => (k.stop .sleeping).schedule
  | .exit => (k.stop .zombie).schedule
  | .setPriority priority => some (k.lab6SetPriority priority)
  | .tick => some k.tick
  | .reap p => some (k.setProc p fun pr => { pr with state := .uninit })

/-- New processes have no structure yet, zombies are reaped, and `idleproc` neither stops nor
    changes its priority. -/
def Legal : Op P → Prop
  | .fork p _ => (k.proc p).state = .uninit
  | .wakeup p => (k.proc p).state = .sleeping ∨ (k.proc p).state = .runnable
  | .schedule | .tick => True
  | .sleep | .exit | .setPriority _ => k.current ≠ k.idleproc
  | .reap p => (k.proc p).state = .zombie

/-- `proc_init`: only `idleproc` is there, and it runs. -/
structure Init : Prop where
  current : k.current = k.idleproc
  idle : (k.proc k.idleproc).state = .runnable
  others : ∀ p, p ≠ k.idleproc → (k.proc p).state = .uninit
  runPool : k.runPool = .nil
  procNum : k.procNum = 0

end Sys

end Ucore.Stride
