/-
  `kern/process/proc.h`, and `wakeup_proc` of `kern/schedule/sched.c`: the states of a process.
-/
import Mathlib.Data.BitVec

namespace Ucore

inductive ProcState where
  | uninit | sleeping | runnable | zombie
  deriving DecidableEq

def wtInterrupted : BitVec 32 := 0x80000000#32
def wtChild : BitVec 32 := 0x00000001#32 ||| wtInterrupted
def wtKsem : BitVec 32 := 0x00000100#32
def wtKbd : BitVec 32 := 0x00000004#32 ||| wtInterrupted

/-- `PF_EXITING` -/
def pfExiting : BitVec 32 := 0x00000001#32

/-- What `do_kill` returns. -/
inductive KillResult where
  | ok
  /-- `-E_KILLED` -/
  | killed
  /-- `-E_INVAL` -/
  | inval
  deriving DecidableEq

/-- The fields of `struct proc_struct` that sleeping and waking up use. -/
structure Proc where
  state : ProcState
  waitState : BitVec 32

/-- `wakeup_proc`, without the run queue; waking a runnable process only prints a warning. -/
def Proc.wakeup (g : Proc) : Option Proc :=
  if g.state = .zombie then none
  else if g.state ≠ .runnable then some ⟨.runnable, 0⟩
  else some g

end Ucore
