/-
  `do_fork`, `do_execve` and `do_exit` of `kern/process/proc.c`, as far as they share and release an
  `mm_struct` and a `files_struct`.

  Processes are given by their pids, the structures by their addresses.  What other parts of the
  kernel answer is a parameter: whether there is memory, a file is opened, a program loaded.  `none`
  is a `panic`, a failed assertion, or the use of a structure that is gone.

  A process can be switched away from where it waits for the disk: in `load_icode`, and in the
  `files_destroy` of `do_exit`.  There a step ends; everything else is done in one.
-/
import Mathlib.Logic.Function.Basic
import Mathlib.Data.Finset.Range
import Mathlib.Data.Int.Order.Basic

namespace Ucore

/-- `loading mm`: in `load_icode`, with the `mm_struct` it has made; `closing`: in `do_exit`, which
    destroys the `files_struct`. -/
inductive Stage where
  | running
  | loading (mm : Option ℕ)
  | closing
  | zombie
  deriving DecidableEq

/-- The fields of `struct proc_struct` that share something. -/
structure Sharer where
  stage : Stage
  mm : Option ℕ
  filesp : Option ℕ

/-- The processes, and the counts of the structures that there are. -/
@[ext]
structure Shares where
  procs : ℕ → Option Sharer
  mms : ℕ → Option ℤ
  filess : ℕ → Option ℤ

namespace Shares

open Function

def setProc (p : ℕ) (h : Sharer) (s : Shares) : Shares :=
  { s with procs := update s.procs p (some h) }

/-! ## Counts -/

def mmCreate (m : ℕ) (s : Shares) : Shares := { s with mms := update s.mms m (some 0) }

def mmCountInc (m : ℕ) (s : Shares) : Option Shares :=
  (s.mms m).map fun c => { s with mms := update s.mms m (some (c + 1)) }

/-- `exit_mmap`, `put_pgdir`, `mm_destroy`; the first and the last assert that the count is 0. -/
def mmDestroy (m : ℕ) (s : Shares) : Option Shares :=
  if s.mms m = some 0 then some { s with mms := update s.mms m none } else none

/-- `if (mm_count_dec(mm) == 0)` and its branch, in `do_exit` and `do_execve`. -/
def putMm (m : ℕ) (s : Shares) : Option Shares :=
  (s.mms m).bind fun c =>
    let s := { s with mms := update s.mms m (some (c - 1)) }
    if c - 1 = 0 then s.mmDestroy m else some s

def filesCreate (f : ℕ) (s : Shares) : Shares := { s with filess := update s.filess f (some 0) }

def filesCountInc (f : ℕ) (s : Shares) : Option Shares :=
  (s.filess f).map fun c => { s with filess := update s.filess f (some (c + 1)) }

/-- `put_files` up to `files_destroy`, which it is about to call if the answer is `true`. -/
def putFiles (filesp : Option ℕ) (s : Shares) : Option (Bool × Shares) :=
  match filesp with
  | none => some (false, s)
  | some f => (s.filess f).map fun c =>
    (decide (c - 1 = 0), { s with filess := update s.filess f (some (c - 1)) })

/-- `files_destroy`, without what it closes. -/
def filesDestroy (f : ℕ) (s : Shares) : Option Shares :=
  if s.filess f = some 0 then some { s with filess := update s.filess f none } else none

/-! ## `do_fork` -/

/-- `proc`: there is room for a process, its structure and its kernel stack; `mm`, `files`: the
    structures that `mm_create` and `files_create` return; `pgdir`, `dup`: `setup_pgdir` and
    `dup_mmap` succeed. -/
structure ForkAnswers where
  proc : Bool
  mm : Option ℕ
  pgdir : Bool
  dup : Bool
  files : Option ℕ

/-- `copy_mm`: `none` for an error, else `proc->mm`. -/
def copyMm (cloneVm : Bool) (a : ForkAnswers) (oldmm : Option ℕ) (s : Shares) :
    Option (Option (Option ℕ) × Shares) :=
  match oldmm with
  | none => some (some none, s)
  | some m =>
    if cloneVm = true then (s.mmCountInc m).map fun s => (some (some m), s)
    else
      match a.mm with
      | none => some (none, s)
      | some n =>
        if a.pgdir = true ∧ a.dup = true then
          ((s.mmCreate n).mmCountInc n).map fun s => (some (some n), s)
        else ((s.mmCreate n).mmDestroy n).map fun s => (none, s)

/-- `copy_files`; `dup_files` does not fail. -/
def copyFiles (cloneFs : Bool) (a : ForkAnswers) (oldFilesp : Option ℕ) (s : Shares) :
    Option (Option ℕ × Shares) :=
  match oldFilesp with
  | none => none
  | some f =>
    if cloneFs = true then (s.filesCountInc f).map fun s => (some f, s)
    else
      match a.files with
      | none => some (none, s)
      | some g =>
        match s.filess f with
        | none => none
        | some c =>
          if 0 < c then ((s.filesCreate g).filesCountInc g).map fun s => (some g, s) else none

/-- `do_fork` of the process `p`; the child gets the pid `q`. -/
def doFork (p q : ℕ) (cloneVm cloneFs : Bool) (a : ForkAnswers) (s : Shares) : Option Shares :=
  (s.procs p).bind fun h =>
    if a.proc = false then some s
    else
      (s.copyMm cloneVm a h.mm).bind fun r =>
        match r with
        | (none, s) => some s
        | (some mm, s) =>
          (s.copyFiles cloneFs a h.filesp).map fun r =>
            match r with
            | (none, s) => s
            | (some f, s) => s.setProc q ⟨.running, mm, some f⟩

/-! ## `do_exit` -/

/-- `do_exit`, up to `files_destroy`; `p` 0 and 1 are `idleproc` and `initproc`. -/
def doExit (p : ℕ) (s : Shares) : Option Shares :=
  if p = 0 ∨ p = 1 then none
  else
    (s.procs p).bind fun h =>
      match h.mm with
      | none => some (s.setProc p { h with stage := .zombie })
      | some m =>
        (s.putMm m).bind fun s => (s.putFiles h.filesp).map fun r =>
          r.2.setProc p { h with mm := none, stage := if r.1 = true then .closing else .zombie }

/-- The rest of `do_exit`. -/
def exitClosed (p : ℕ) (s : Shares) : Option Shares :=
  (s.procs p).bind fun h => h.filesp.bind fun f =>
    (s.filesDestroy f).map fun s => s.setProc p { h with stage := .zombie }

/-! ## `do_execve` -/

/-- `refused`: the arguments cannot be used; then whether `sysfile_open` opens the program. -/
inductive ExecAnswer where
  | refused
  | notOpened
  | opened

/-- `do_execve`, up to `load_icode`. -/
def doExecve (p : ℕ) (a : ExecAnswer) (s : Shares) : Option Shares :=
  (s.procs p).bind fun h =>
    match a with
    | .refused => some s
    | .notOpened => s.doExit p
    | .opened =>
      match h.mm with
      | none => some (s.setProc p { h with stage := .loading none })
      | some m => (s.putMm m).map fun s =>
        s.setProc p { h with mm := none, stage := .loading none }

/-- `mm_create` and `setup_pgdir` of `load_icode`; `mm` is `none` if one of them fails. -/
def loadCreate (p : ℕ) (mm : Option ℕ) (s : Shares) : Option Shares :=
  (s.procs p).bind fun h =>
    match mm with
    | none => (s.setProc p { h with stage := .running }).doExit p
    | some n => some ((s.mmCreate n).setProc p { h with stage := .loading (some n) })

/-- How `load_icode` goes on: `failed` before the new `mm_struct` is installed, `badExec` after. -/
inductive LoadAnswer where
  | failed
  | badExec
  | loaded

/-- The rest of `load_icode`, and of `do_execve`. -/
def loadIcode (p : ℕ) (a : LoadAnswer) (s : Shares) : Option Shares :=
  (s.procs p).bind fun h =>
    match h.stage with
    | .loading (some n) =>
      match a with
      | .failed => (s.mmDestroy n).bind fun s => (s.setProc p { h with stage := .running }).doExit p
      | .badExec => (s.mmCountInc n).bind fun s =>
        ((s.setProc p { h with stage := .running, mm := some n }).mmDestroy n).bind fun s =>
          s.doExit p
      | .loaded => (s.mmCountInc n).map fun s =>
        s.setProc p { h with stage := .running, mm := some n }
    | _ => none

end Shares

end Ucore
