/-
  `kern/schedule/sched.c`, `kern/schedule/default_sched.c`, and what `kern/process/proc.c` and
  `kern/sync` do to the states of processes.

  `P` are the processes, `T` the places of timers and `S` the semaphores.  The process table is that
  of `Procs`, and the wait queue of a semaphore is a list.  Interrupts are off inside the functions
  below, so each of them is one step; a process that has put itself to sleep calls `schedule()` in a
  later one, so that a tick or a wakeup can come between.  `Place` says where a process is.
-/
import Ucore.Lib.DeltaList
import Ucore.Process.TreeRun
import Ucore.Sync.Sem

namespace Ucore

open Intrusive DeltaList

def wtTimer : BitVec 32 := 0x00000002#32 ||| wtInterrupted

def maxTimeSlice : ℤ := 5

def eKilled : ℤ := 9

/-! ## Structures -/

/-- Why the kernel stops: an assertion of `RR_enqueue` or `RR_dequeue`, or another one (or a
    `panic`, or a walk over a list that does not end). -/
inductive Stop where
  | rrEnqueue
  | rrDequeue
  | panic
  deriving DecidableEq

/-- A `list_entry_t` of the run queue or of the timers. -/
inductive SchedNode (P T : Type) where
  | runList
  | runLink (p : P)
  | timerList
  | timerLink (t : T)
  deriving DecidableEq

/-- The fields of `struct proc_struct` that the scheduler uses, but `state` and `wait_state`;
    `queued` says that `rq` points to the run queue, and `exiting` is `PF_EXITING`. -/
structure Task where
  queued : Bool
  timeSlice : ℤ
  needResched : Bool
  runs : ℕ
  exiting : Bool

/-- `timer_t`. -/
structure Timer (P : Type) where
  expires : ℕ
  proc : P

/-- What a process has to do when `schedule()` returns. -/
inductive Cont (S T : Type) where
  | plain
  | sleep (timer : T)
  | down (sem : S)
  | wait (pid : ℤ)
  | exit
  deriving DecidableEq

/-- A process runs, is about to call `schedule()`, or is inside. -/
inductive Place (S T : Type) where
  | run
  | call (c : Cont S T)
  | inside (c : Cont S T)
  deriving DecidableEq

/-- The kernel.  `live`, `inited`, `enqueued`, `dequeued` and `events` are not in the source: the
    processes forked but not reaped, the timers that `timer_init` has seen, what has gone into the
    run queue and come out of it, and what has happened to the timers. -/
structure Sched (S P T : Type) where
  procs : Procs P
  live : Finset P
  links : Links (SchedNode P T)
  procNum : ℕ
  task : P → Task
  timer : T → Timer P
  value : S → ℤ
  waiters : S → List P
  wakeupFlags : P → BitVec 32
  current : P
  pc : P → Place S T
  inited : T → Bool
  enqueued : List P
  dequeued : List P
  events : List (Event T)

set_option linter.unusedSectionVars false

variable {S P T : Type} [DecidableEq S] [DecidableEq P] [DecidableEq T] [Fintype T]

/-- A function that the kernel panics in when it has no value. -/
def orPanic {α : Type} : Option α → Except Stop α
  | some a => .ok a
  | none => .error .panic

namespace Sched

def run (k : Sched S P T) (p : P) : Proc := (k.procs.pcb p).run

def setRun (k : Sched S P T) (p : P) (g : Proc) : Sched S P T :=
  { k with procs := k.procs.setRun p g }

def setTask (k : Sched S P T) (p : P) (f : Task → Task) : Sched S P T :=
  { k with task := Function.update k.task p (f (k.task p)) }

def setExpires (k : Sched S P T) (t : T) (n : ℕ) : Sched S P T :=
  { k with timer := Function.update k.timer t { k.timer t with expires := n } }

def setPc (k : Sched S P T) (p : P) (pc : Place S T) : Sched S P T :=
  { k with pc := Function.update k.pc p pc }

def setWaiters (k : Sched S P T) (s : S) (ps : List P) : Sched S P T :=
  { k with waiters := Function.update k.waiters s ps }

def record (k : Sched S P T) (e : Event T) : Sched S P T := { k with events := e :: k.events }

/-! ## `default_sched.c` -/

def rrInit (k : Sched S P T) : Sched S P T :=
  { k with links := listInit k.links .runList, procNum := 0 }

def rrEnqueue (k : Sched S P T) (proc : P) : Except Stop (Sched S P T) :=
  if listEmpty k.links (.runLink proc) then
    .ok { k.setTask proc fun g =>
        { g with
          timeSlice := if g.timeSlice = 0 ∨ g.timeSlice > maxTimeSlice then maxTimeSlice
            else g.timeSlice
          queued := true } with
      links := listAddBefore k.links .runList (.runLink proc)
      procNum := (k.procNum + 1) % 2 ^ 32
      enqueued := k.enqueued ++ [proc] }
  else .error .rrEnqueue

def rrDequeue (k : Sched S P T) (proc : P) : Except Stop (Sched S P T) :=
  if !listEmpty k.links (.runLink proc) ∧ (k.task proc).queued then
    .ok { k with
      links := listDelInit k.links (.runLink proc)
      procNum := (k.procNum + 2 ^ 32 - 1) % 2 ^ 32
      dequeued := k.dequeued ++ [proc] }
  else .error .rrDequeue

def rrPickNext (k : Sched S P T) : Option P :=
  match listNext k.links .runList with
  | .runLink proc => some proc
  | _ => none

def rrProcTick (k : Sched S P T) (proc : P) : Sched S P T :=
  let k := k.setTask proc fun g =>
    { g with timeSlice := if g.timeSlice > 0 then g.timeSlice - 1 else g.timeSlice }
  k.setTask proc fun g =>
    { g with needResched := if g.timeSlice = 0 then true else g.needResched }

/-! ## `sched.c` -/

def schedClassEnqueue (k : Sched S P T) (proc : P) : Except Stop (Sched S P T) :=
  if proc ≠ k.procs.idleproc then k.rrEnqueue proc else .ok k

def schedClassProcTick (k : Sched S P T) (proc : P) : Sched S P T :=
  if proc ≠ k.procs.idleproc then k.rrProcTick proc
  else k.setTask proc fun g => { g with needResched := true }

def schedInit (k : Sched S P T) : Sched S P T :=
  ({ k with links := listInit k.links .timerList }).rrInit

def wakeupProc (k : Sched S P T) (proc : P) : Except Stop (Sched S P T) :=
  if (k.run proc).state = .zombie then .error .panic
  else if (k.run proc).state ≠ .runnable then
    if proc ≠ k.current then (k.setRun proc ⟨.runnable, 0⟩).schedClassEnqueue proc
    else .ok (k.setRun proc ⟨.runnable, 0⟩)
  else .ok k

/-- `if (current->state == PROC_RUNNABLE) sched_class_enqueue(current)` -/
def enqueueCurrent (k : Sched S P T) : Except Stop (Sched S P T) :=
  if (k.run k.current).state = .runnable then k.schedClassEnqueue k.current else .ok k

/-- `schedule`, with the `current = next` of `proc_run`. -/
def schedule (k : Sched S P T) : Except Stop (Sched S P T) := do
  let k := k.setTask k.current fun g => { g with needResched := false }
  let k ← k.enqueueCurrent
  match k.rrPickNext with
  | some next => do
    let k ← k.rrDequeue next
    let k := k.setTask next fun g => { g with runs := g.runs + 1 }
    .ok { k with current := next }
  | none =>
    let k := k.setTask k.procs.idleproc fun g => { g with runs := g.runs + 1 }
    .ok { k with current := k.procs.idleproc }

def timerInit (k : Sched S P T) (timer : T) (proc : P) (expires : ℕ) : Sched S P T :=
  { k with
    timer := Function.update k.timer timer ⟨expires, proc⟩
    links := listInit k.links (.timerLink timer)
    inited := Function.update k.inited timer true }

/-- More steps than there are timers do not lead around their list. -/
def fuel (T : Type) [Fintype T] : ℕ := Fintype.card T + 1

/-- The loop of `add_timer`; returns the entry before which the timer is linked. -/
def addTimerWalk (timer : T) : ℕ → Sched S P T → SchedNode P T →
    Option (Sched S P T × SchedNode P T)
  | 0, _, _ => none
  | n + 1, k, .timerLink next =>
    if (k.timer timer).expires < (k.timer next).expires then
      some (k.setExpires next ((k.timer next).expires - (k.timer timer).expires), .timerLink next)
    else
      addTimerWalk timer n
        (k.setExpires timer ((k.timer timer).expires - (k.timer next).expires))
        (listNext k.links (.timerLink next))
  | _ + 1, k, le => some (k, le)

def addTimer (k : Sched S P T) (timer : T) : Except Stop (Sched S P T) :=
  if 0 < (k.timer timer).expires ∧ listEmpty k.links (.timerLink timer) then do
    let (k, le) ← orPanic (addTimerWalk timer (fuel T) k (listNext k.links .timerList))
    .ok { k with links := listAddBefore k.links le (.timerLink timer) }
  else .error .panic

/-- `next->expires += timer->expires`, if there is a next timer. -/
def giveExpires (k : Sched S P T) (timer : T) : Sched S P T :=
  if (k.timer timer).expires ≠ 0 then
    match listNext k.links (.timerLink timer) with
    | .timerLink next =>
      k.setExpires next (((k.timer next).expires + (k.timer timer).expires) % 2 ^ 32)
    | _ => k
  else k

def delTimer (k : Sched S P T) (timer : T) : Sched S P T :=
  if !listEmpty k.links (.timerLink timer) then
    let k := k.giveExpires timer
    { k with links := listDelInit k.links (.timerLink timer) }
  else k

/-- The loop of `run_timer_list`; also returns the timers that fire. -/
def timerLoop : ℕ → Sched S P T → T → Except Stop (Sched S P T × List T)
  | 0, _, _ => .error .panic
  | n + 1, k, timer =>
    if (k.timer timer).expires = 0 then
      let le := listNext k.links (.timerLink timer)
      let proc := (k.timer timer).proc
      if (k.run proc).waitState = 0 ∨ (k.run proc).waitState &&& wtInterrupted ≠ 0 then do
        let k ← k.wakeupProc proc
        let k := k.delTimer timer
        match le with
        | .timerLink next => do
          let (k, fired) ← timerLoop n k next
          .ok (k, timer :: fired)
        | _ => .ok (k, [timer])
      else .error .panic
    else .ok (k, [])

/-- The part of `run_timer_list` before the scheduler's tick. -/
def runTimers (k : Sched S P T) : Except Stop (Sched S P T × List T) :=
  match listNext k.links .timerList with
  | .timerLink timer =>
    if (k.timer timer).expires ≠ 0 then
      timerLoop (fuel T) (k.setExpires timer ((k.timer timer).expires - 1)) timer
    else .error .panic
  | _ => .ok (k, [])

def runTimerList (k : Sched S P T) : Except Stop (Sched S P T) := do
  let (k, fired) ← k.runTimers
  let k := k.record (.tick fired)
  .ok (k.schedClassProcTick k.current)

/-! ## `proc.c` -/

/-- `do_fork` up to the allocations, with `alloc_proc`. -/
def doForkBegin (k : Sched S P T) (proc : P) : Sched S P T :=
  let (s, allocated) := k.procs.doForkBegin k.current proc
  if allocated then
    { k with
      procs := s
      links := listInit k.links (.runLink proc)
      task := Function.update k.task proc ⟨false, 0, false, 0, false⟩
      pc := Function.update k.pc proc .run }
  else { k with procs := s }

def doForkFail (k : Sched S P T) : Sched S P T :=
  { k with procs := k.procs.doForkFail k.current }

/-- The rest of `do_fork`. -/
def doForkEnd (k : Sched S P T) : Except Stop (Sched S P T) := do
  let proc ← orPanic (k.procs.forking k.current)
  let (pid, s) ← orPanic k.procs.getPid
  let s := (s.setPid proc pid).hashProc proc
  let s ← orPanic (s.setLinks proc)
  let k ← ({ k with procs := s, live := insert proc k.live }).wakeupProc proc
  .ok { k with procs :=
    { k.procs with forking := Function.update k.procs.forking k.current none } }

/-- `if (c) wakeup_proc(proc)` -/
def wakeupProcIf (k : Sched S P T) (c : Prop) [Decidable c] (proc : P) :
    Except Stop (Sched S P T) :=
  if c then k.wakeupProc proc else .ok k

/-- The loop of `do_exit` that hands the children of `current` to `initproc`. -/
def reparent (current initproc : P) : ℕ → Sched S P T → Except Stop (Sched S P T)
  | 0, _ => .error .panic
  | n + 1, k =>
    match (k.procs.pcb current).cptr with
    | none => .ok k
    | some proc => do
      let s := k.procs.setCptr current (k.procs.pcb proc).optr
      let s := s.setYptr proc none
      let s := s.setOptr proc (s.pcb initproc).cptr
      let s := s.setYptr? (s.pcb initproc).cptr (some proc)
      let s := s.setParent proc (some initproc)
      let s := s.setCptr initproc (some proc)
      let k := { k with procs := s }
      let k ← k.wakeupProcIf
        ((k.run proc).state = .zombie ∧ (k.run initproc).waitState = wtChild) initproc
      reparent current initproc n k

/-- `current->state = PROC_ZOMBIE; current->exit_code = error_code` -/
def setZombie (k : Sched S P T) (errorCode : ℤ) : Sched S P T :=
  let s := k.procs.setRun k.current ⟨.zombie, (k.run k.current).waitState⟩
  { k with procs := s.setExitCode k.current errorCode }

/-- `do_exit` from `current->state = PROC_ZOMBIE` to `schedule()`. -/
def doExit (k : Sched S P T) (errorCode : ℤ) : Except Stop (Sched S P T) :=
  if k.current = k.procs.idleproc ∨ some k.current = k.procs.initproc then .error .panic
  else do
    let initproc ← orPanic k.procs.initproc
    let k := k.setZombie errorCode
    let parent ← orPanic (k.procs.pcb k.current).parent
    let k ← k.wakeupProcIf ((k.run parent).waitState = wtChild) parent
    let k ← reparent k.current initproc Procs.fuel k
    .ok (k.setPc k.current (.call .exit))

/-- One pass of `do_wait`. -/
def doWait (k : Sched S P T) (pid : ℤ) : Except Stop (Sched S P T) := do
  let (_, found) ← orPanic (k.procs.waitSearch k.current pid)
  let (res, s) ← orPanic (k.procs.doWait k.current pid)
  match found, res with
  | some proc, _ => .ok ({ k with procs := s, live := k.live.erase proc }.setPc k.current .run)
  | none, .sleeping => .ok ({ k with procs := s }.setPc k.current (.call (.wait pid)))
  | none, _ => .ok ({ k with procs := s }.setPc k.current .run)

/-- `do_kill` of a process that is found. -/
def killProc (k : Sched S P T) (proc : P) : Except Stop (Sched S P T) :=
  if (k.task proc).exiting = false then
    let k := k.setTask proc fun g => { g with exiting := true }
    k.wakeupProcIf ((k.run proc).waitState &&& wtInterrupted ≠ 0) proc
  else .ok k

def doKill (k : Sched S P T) (pid : ℤ) : Except Stop (Sched S P T) := do
  match ← orPanic (k.procs.findProc pid) with
  | some proc => k.killProc proc
  | none => .ok k

def doYield (k : Sched S P T) : Sched S P T :=
  k.setTask k.current fun g => { g with needResched := true }

/-- `do_sleep` up to `schedule()`; `timer` is the place of `__timer` on the stack. -/
def doSleep (k : Sched S P T) (timer : T) (time : ℕ) : Except Stop (Sched S P T) :=
  if time = 0 then .ok k
  else do
    let k := k.timerInit timer k.current time
    let k := k.setRun k.current ⟨.sleeping, wtTimer⟩
    let k ← k.addTimer timer
    .ok ((k.record (.add timer time)).setPc k.current (.call (.sleep timer)))

/-! ## `sem.c` -/

def semInit (k : Sched S P T) (sem : S) (value : ℤ) : Sched S P T :=
  { k with
    value := Function.update k.value sem value
    waiters := Function.update k.waiters sem [] }

def up (k : Sched S P T) (sem : S) : Except Stop (Sched S P T) :=
  match k.waiters sem with
  | [] => .ok { k with value := Function.update k.value sem (i32 (k.value sem + 1)) }
  | proc :: ps =>
    if (k.run proc).waitState = wtKsem then
      ({ k with
        waiters := Function.update k.waiters sem ps
        wakeupFlags := Function.update k.wakeupFlags proc wtKsem }).wakeupProc proc
    else .error .panic

/-- `try_down`, and `__down` that need not wait. -/
def takePermit (k : Sched S P T) (sem : S) : Sched S P T :=
  { k with value := Function.update k.value sem (k.value sem - 1) }

/-- `wait_current_set` on a wait queue that is not modelled, with the state to wait in. -/
def block (k : Sched S P T) (waitState : BitVec 32) : Sched S P T :=
  (k.setRun k.current ⟨.sleeping, waitState⟩).setPc k.current (.call .plain)

/-- `down` up to `schedule()`. -/
def down (k : Sched S P T) (sem : S) : Sched S P T :=
  if 0 < k.value sem then k.takePermit sem
  else
    let k := k.setRun k.current ⟨.sleeping, wtKsem⟩
    let k := { k with wakeupFlags := Function.update k.wakeupFlags k.current wtInterrupted }
    (k.setWaiters sem (k.waiters sem ++ [k.current])).setPc k.current (.call (.down sem))

/-- `down` from `schedule()` on. -/
def downResume (k : Sched S P T) (sem : S) : Except Stop (Sched S P T) :=
  let k := k.setWaiters sem ((k.waiters sem).erase k.current)
  if k.wakeupFlags k.current = wtKsem then .ok (k.setPc k.current .run) else .error .panic

/-- What the current process does when `schedule()` returns. -/
def resume (k : Sched S P T) : Cont S T → Except Stop (Sched S P T)
  | .plain => .ok (k.setPc k.current .run)
  | .sleep timer => .ok (((k.delTimer timer).record (.del timer)).setPc k.current .run)
  | .down sem => k.downResume sem
  | .wait pid => if (k.task k.current).exiting then k.doExit (-eKilled) else k.doWait pid
  | .exit => .error .panic

end Sched

end Ucore
