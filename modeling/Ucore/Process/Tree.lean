/-
  `kern/process/proc.c`: the process table.

  `P` are the addresses of `struct proc_struct`.  The table is the global list, the hash table of
  pids, the sibling chains and `nr_process`.  Interrupts are off wherever these are written, so the
  part of `do_fork` behind the last allocation, `do_exit` from `PROC_ZOMBIE` on, and one pass of
  `do_wait` are one step each; a `do_fork` that has allocated its child but not linked it yet is
  recorded in `forking`.  `none` is a null dereference, a failed assertion, a panic or a loop that
  does not end.
-/
import Ucore.Libs.Hash
import Ucore.Libs.List
import Ucore.Process.Proc

namespace Ucore

open Intrusive

def maxProcess : ℤ := 4096
def maxPid : ℤ := maxProcess * 2

/-! ## Hashing -/

def hashShift : ℕ := 10

def pidHashfn (pid : ℤ) : ℕ := hash32 (pid % 2 ^ 32).toNat hashShift

/-! ## Process structures -/

/-- `struct proc_struct`, as far as the table is concerned; `run` are its `state` and
    `wait_state`. -/
structure Pcb (P : Type) where
  run : Proc
  pid : ℤ
  parent : Option P
  exitCode : ℤ
  cptr : Option P
  yptr : Option P
  optr : Option P

/-- A `list_entry_t` of the process table. -/
inductive ProcNode (P : Type) where
  | procList
  | hashList (i : ℕ)
  | listLink (p : P)
  | hashLink (p : P)
  deriving DecidableEq

structure Procs (P : Type) where
  links : Links (ProcNode P)
  pcb : P → Pcb P
  nrProcess : ℤ
  lastPid : ℤ
  nextSafe : ℤ
  idleproc : P
  initproc : Option P
  /-- The child that a process in `do_fork` has allocated. -/
  forking : P → Option P

/-- What one pass of `do_wait` comes to. -/
inductive WaitResult where
  | reaped (exitCode : ℤ)
  | badProc
  | sleeping
  deriving DecidableEq

variable {P : Type} [DecidableEq P]

namespace Procs

def setPcb (s : Procs P) (p : P) (g : Pcb P) : Procs P :=
  { s with pcb := Function.update s.pcb p g }

def setRun (s : Procs P) (p : P) (g : Proc) : Procs P := s.setPcb p { s.pcb p with run := g }
def setPid (s : Procs P) (p : P) (pid : ℤ) : Procs P := s.setPcb p { s.pcb p with pid := pid }
def setExitCode (s : Procs P) (p : P) (c : ℤ) : Procs P := s.setPcb p { s.pcb p with exitCode := c }
def setParent (s : Procs P) (p : P) (o : Option P) : Procs P :=
  s.setPcb p { s.pcb p with parent := o }
def setCptr (s : Procs P) (p : P) (o : Option P) : Procs P := s.setPcb p { s.pcb p with cptr := o }
def setYptr (s : Procs P) (p : P) (o : Option P) : Procs P := s.setPcb p { s.pcb p with yptr := o }
def setOptr (s : Procs P) (p : P) (o : Option P) : Procs P := s.setPcb p { s.pcb p with optr := o }

/-- `if (proc != NULL) proc->yptr = val` -/
def setYptr? (s : Procs P) (p : Option P) (o : Option P) : Procs P :=
  { s with pcb := match p with
    | some p => (s.setYptr p o).pcb
    | none => s.pcb }

def wakeupProc (s : Procs P) (proc : P) : Option (Procs P) := do
  let g ← (s.pcb proc).run.wakeup
  some (s.setRun proc g)

/-- `if (c) wakeup_proc(proc)` -/
def wakeupProcIf (s : Procs P) (c : Prop) [Decidable c] (proc : P) : Option (Procs P) :=
  if c then s.wakeupProc proc else some s

/-! ## Links -/

def setLinks (s : Procs P) (proc : P) : Option (Procs P) := do
  let parent ← (s.pcb proc).parent
  let s := { s with links := listAdd s.links .procList (.listLink proc) }
  let s := s.setYptr proc none
  let s := s.setOptr proc (s.pcb parent).cptr
  let s := s.setYptr? (s.pcb proc).optr (some proc)
  let s := s.setCptr parent (some proc)
  some { s with nrProcess := s.nrProcess + 1 }

def removeLinks (s : Procs P) (proc : P) : Option (Procs P) := do
  let s := { s with links := listDel s.links (.listLink proc) }
  let s := s.setYptr? (s.pcb proc).optr (s.pcb proc).yptr
  let s ←
    match (s.pcb proc).yptr with
    | some y => some (s.setOptr y (s.pcb proc).optr)
    | none => do
      let parent ← (s.pcb proc).parent
      some (s.setCptr parent (s.pcb proc).optr)
  some { s with nrProcess := s.nrProcess - 1 }

def hashProc (s : Procs P) (proc : P) : Procs P :=
  { s with links := listAdd s.links (.hashList (pidHashfn (s.pcb proc).pid)) (.hashLink proc) }

def unhashProc (s : Procs P) (proc : P) : Procs P :=
  { s with links := listDel s.links (.hashLink proc) }

/-- No list of the table is longer than this. -/
def fuel : ℕ := 2 * maxPid.toNat

/-- `le2proc(le, list_link)` for the nodes of a list. -/
def listProc : ProcNode P → Option P
  | .listLink p => some p
  | _ => none

/-- `le2proc(le, hash_link)` for the nodes of a list. -/
def hashedProc : ProcNode P → Option P
  | .hashLink p => some p
  | _ => none

def findProc (s : Procs P) (pid : ℤ) : Option (Option P) :=
  if 0 < pid ∧ pid < maxPid then do
    let list := .hashList (pidHashfn pid)
    let procs ← (← listNodes s.links list fuel list).mapM hashedProc
    some (procs.find? fun proc => (s.pcb proc).pid = pid)
  else some none

/-! ## Pids -/

/-- One walk of `get_pid` over the process list: `last_pid`, `next_safe`, and whether the walk has
    to start again. -/
def pidWalk (pid : P → ℤ) : List P → ℤ → ℤ → ℤ × ℤ × Bool
  | [], last, safe => (last, safe, false)
  | proc :: procs, last, safe =>
    if pid proc = last then
      if last + 1 ≥ safe then (if last + 1 ≥ maxPid then 1 else last + 1, maxPid, true)
      else pidWalk pid procs (last + 1) safe
    else if pid proc > last ∧ safe > pid proc then pidWalk pid procs last (pid proc)
    else pidWalk pid procs last safe

/-- `repeat:` -/
def pidRepeat (pid : P → ℤ) (procs : List P) : ℕ → ℤ → ℤ → Option (ℤ × ℤ)
  | 0, _, _ => none
  | k + 1, last, safe =>
    match pidWalk pid procs last safe with
    | (last, safe, true) => pidRepeat pid procs k last safe
    | (last, safe, false) => some (last, safe)

def getPid (s : Procs P) : Option (ℤ × Procs P) := do
  let inside (last : ℤ) : Option (ℤ × Procs P) := do
    let procs ← (← listNodes s.links .procList fuel .procList).mapM listProc
    let (last, safe) ← pidRepeat (fun p => (s.pcb p).pid) procs fuel last maxPid
    some (last, { s with lastPid := last, nextSafe := safe })
  let last := s.lastPid + 1
  if last ≥ maxPid then inside 1
  else if last ≥ s.nextSafe then inside last
  else some (last, { s with lastPid := last })

/-! ## System calls -/

/-- A fresh `proc_struct`. -/
def allocProc (s : Procs P) (proc : P) : Procs P :=
  s.setPcb proc ⟨⟨.uninit, 0⟩, -1, none, (s.pcb proc).exitCode, none, none, none⟩

/-- `do_fork` up to the allocations; `false` is `-E_NO_FREE_PROC`. -/
def doForkBegin (s : Procs P) (current proc : P) : Procs P × Bool :=
  if s.nrProcess ≥ maxProcess then (s, false)
  else
    let s := (s.allocProc proc).setParent proc (some current)
    ({ s with forking := Function.update s.forking current (some proc) }, true)

/-- An allocation fails: `-E_NO_MEM`. -/
def doForkFail (s : Procs P) (current : P) : Procs P :=
  { s with forking := Function.update s.forking current none }

/-- The rest of `do_fork`, and the pid it returns. -/
def doForkEnd (s : Procs P) (current : P) : Option (ℤ × Procs P) := do
  let proc ← s.forking current
  let (pid, s) ← s.getPid
  let s := s.setPid proc pid
  let s := s.hashProc proc
  let s ← s.setLinks proc
  let s ← s.wakeupProc proc
  some ((s.pcb proc).pid, { s with forking := Function.update s.forking current none })

/-- The loop of `do_exit` that hands the children of `current` to `initproc`. -/
def reparent (current initproc : P) : ℕ → Procs P → Option (Procs P)
  | 0, _ => none
  | k + 1, s =>
    match (s.pcb current).cptr with
    | none => some s
    | some proc => do
      let s := s.setCptr current (s.pcb proc).optr
      let s := s.setYptr proc none
      let s := s.setOptr proc (s.pcb initproc).cptr
      let s := s.setYptr? (s.pcb initproc).cptr (some proc)
      let s := s.setParent proc (some initproc)
      let s := s.setCptr initproc (some proc)
      let s ← s.wakeupProcIf
        ((s.pcb proc).run.state = .zombie ∧ (s.pcb initproc).run.waitState = wtChild) initproc
      reparent current initproc k s

/-- `do_exit` from `current->state = PROC_ZOMBIE` to `schedule()`. -/
def doExit (s : Procs P) (current : P) (errorCode : ℤ) : Option (Procs P) :=
  if current = s.idleproc ∨ some current = s.initproc then none
  else do
    let initproc ← s.initproc
    let s := s.setRun current ⟨.zombie, (s.pcb current).run.waitState⟩
    let s := s.setExitCode current errorCode
    let parent ← (s.pcb current).parent
    let s ← s.wakeupProcIf ((s.pcb parent).run.waitState = wtChild) parent
    reparent current initproc fuel s

/-- The loop of `do_wait` over the children: whether there is one, and the first zombie. -/
def childWalk (s : Procs P) : ℕ → Option P → Bool → Option (Bool × Option P)
  | 0, _, _ => none
  | _ + 1, none, haskid => some (haskid, none)
  | k + 1, some proc, _ =>
    if (s.pcb proc).run.state = .zombie then some (true, some proc)
    else s.childWalk k (s.pcb proc).optr true

/-- The search of `do_wait`. -/
def waitSearch (s : Procs P) (current : P) (pid : ℤ) : Option (Bool × Option P) :=
  if pid ≠ 0 then do
    match ← s.findProc pid with
    | some proc =>
      if (s.pcb proc).parent = some current then
        some (true, if (s.pcb proc).run.state = .zombie then some proc else none)
      else some (false, none)
    | none => some (false, none)
  else s.childWalk fuel (s.pcb current).cptr false

/-- One pass of `do_wait`: it finds a zombie, goes to sleep, or has nothing to wait for. -/
def doWait (s : Procs P) (current : P) (pid : ℤ) : Option (WaitResult × Procs P) := do
  match ← s.waitSearch current pid with
  | (_, some proc) =>
    if proc = s.idleproc ∨ some proc = s.initproc then none
    else do
      let exitCode := (s.pcb proc).exitCode
      let s ← (s.unhashProc proc).removeLinks proc
      some (.reaped exitCode, s)
  | (true, none) => some (.sleeping, s.setRun current ⟨.sleeping, wtChild⟩)
  | (false, none) => some (.badProc, s)

/-! ## The start -/

/-- The list heads initialised by `proc_init`. -/
def initLists (L : Links (ProcNode P)) : Links (ProcNode P) :=
  (List.range (2 ^ hashShift)).foldl (fun L i => listInit L (.hashList i)) (listInit L .procList)

/-- `proc_init` up to the first `kernel_thread`. -/
def procInitIdle (L : Links (ProcNode P)) (pcb : P → Pcb P) (idleproc : P) : Procs P :=
  let s : Procs P := ⟨initLists L, pcb, 0, maxPid, maxPid, idleproc, none, fun _ => none⟩
  let s := s.allocProc idleproc
  let s := (s.setPid idleproc 0).setRun idleproc ⟨.runnable, (s.pcb idleproc).run.waitState⟩
  { s with nrProcess := s.nrProcess + 1 }

/-- `proc_init`; `proc` is the structure that `init_main` gets. -/
def procInit (L : Links (ProcNode P)) (pcb : P → Pcb P) (idleproc proc : P) :
    Option (Procs P) := do
  let (s, ok) := (procInitIdle L pcb idleproc).doForkBegin idleproc proc
  if !ok then none
  else do
    let (pid, s) ← s.doForkEnd idleproc
    let initproc ← s.findProc pid
    match initproc with
    | none => none
    | some p =>
      if (s.pcb idleproc).pid = 0 ∧ (s.pcb p).pid = 1 then some { s with initproc := some p }
      else none

end Procs

end Ucore
