/-
  `kern/sync/wait.c` and `kern/sync/sem.c`: wait queues and semaphores.

  `S` are the semaphores and `P` the processes.  Every process has one `wait_t`, on its kernel
  stack, which it uses in the `down` it is in (`inDown`).  Interrupts are off inside the functions
  below, so each of them is one step; `__down` is two, since the process may be switched out in the
  `schedule()` between them.  The run queue is not modelled: a process that is not running can only
  be resumed when it is runnable.  `none` is a failed assertion.
-/
import Ucore.Libs.List
import Ucore.Process.Proc
import Mathlib.Data.Int.Basic

namespace Ucore

open Intrusive

/-- `int` arithmetic. -/
def i32 (x : ℤ) : ℤ := Int.bmod x (2 ^ 32)

theorem i32_of_lt {n : ℕ} (h : n < 2 ^ 31) : i32 n = n := by
  rw [i32, Int.bmod_eq_of_le] <;> omega

/-- A `list_entry_t` of a wait queue. -/
inductive WaitNode (S P : Type) where
  | waitHead (s : S)
  | waitLink (p : P)
  deriving DecidableEq

/-- `wait_t`. -/
structure Wait (S P : Type) where
  proc : Option P
  wakeupFlags : BitVec 32
  waitQueue : S

structure Kern (S P : Type) where
  value : S → ℤ
  links : Links (WaitNode S P)
  wait : P → Wait S P
  proc : P → Proc
  /-- The semaphore in whose `__down` the process is behind `wait_current_set`. -/
  inDown : P → Option S

set_option linter.unusedSectionVars false

variable {S P : Type} [DecidableEq S] [DecidableEq P]

namespace Kern

def setValue (k : Kern S P) (s : S) (v : ℤ) : Kern S P :=
  { k with value := Function.update k.value s v }

def setWait (k : Kern S P) (p : P) (w : Wait S P) : Kern S P :=
  { k with wait := Function.update k.wait p w }

def setProc (k : Kern S P) (p : P) (g : Proc) : Kern S P :=
  { k with proc := Function.update k.proc p g }

def setInDown (k : Kern S P) (p : P) (s : Option S) : Kern S P :=
  { k with inDown := Function.update k.inDown p s }

/-! ## `wait.c` -/

def waitInit (k : Kern S P) (wait : P) (proc : Option P) : Kern S P :=
  { k.setWait wait { k.wait wait with proc := proc, wakeupFlags := wtInterrupted } with
    links := listInit k.links (.waitLink wait) }

def waitQueueInit (k : Kern S P) (queue : S) : Kern S P :=
  { k with links := listInit k.links (.waitHead queue) }

def waitQueueAdd (k : Kern S P) (queue : S) (wait : P) : Option (Kern S P) :=
  if listEmpty k.links (.waitLink wait) && (k.wait wait).proc.isSome then
    some { k.setWait wait { k.wait wait with waitQueue := queue } with
      links := listAddBefore k.links (.waitHead queue) (.waitLink wait) }
  else none

def waitQueueDel (k : Kern S P) (queue : S) (wait : P) : Option (Kern S P) :=
  if !listEmpty k.links (.waitLink wait) ∧ (k.wait wait).waitQueue = queue then
    some { k with links := listDelInit k.links (.waitLink wait) }
  else none

def waitQueueFirst (k : Kern S P) (queue : S) : Option P :=
  match listNext k.links (.waitHead queue) with
  | .waitHead _ => none
  | .waitLink wait => some wait

def waitQueueNext (k : Kern S P) (queue : S) (wait : P) : Option (Option P) :=
  if !listEmpty k.links (.waitLink wait) ∧ (k.wait wait).waitQueue = queue then
    match listNext k.links (.waitLink wait) with
    | .waitHead _ => some none
    | .waitLink wait => some (some wait)
  else none

def waitQueueEmpty (k : Kern S P) (queue : S) : Bool := listEmpty k.links (.waitHead queue)

def waitInQueue (k : Kern S P) (wait : P) : Bool := !listEmpty k.links (.waitLink wait)

def wakeupProc (k : Kern S P) (proc : P) : Option (Kern S P) := do
  let g ← (k.proc proc).wakeup
  some (k.setProc proc g)

def wakeupWait (k : Kern S P) (queue : S) (wait : P) (wakeupFlags : BitVec 32) (del : Bool) :
    Option (Kern S P) := do
  let k ← if del then k.waitQueueDel queue wait else some k
  let k := k.setWait wait { k.wait wait with wakeupFlags := wakeupFlags }
  k.wakeupProc (← (k.wait wait).proc)

/-- The loops of `wakeup_queue`; `none` also if `n` rounds are not enough. -/
def wakeupLoop (queue : S) (wakeupFlags : BitVec 32) (del : Bool) : ℕ → P → Kern S P →
    Option (Kern S P)
  | 0, _, _ => none
  | n + 1, wait, k => do
    let k ← k.wakeupWait queue wait wakeupFlags del
    match ← if del then some (k.waitQueueFirst queue) else k.waitQueueNext queue wait with
    | some wait => wakeupLoop queue wakeupFlags del n wait k
    | none => some k

def wakeupQueue (n : ℕ) (k : Kern S P) (queue : S) (wakeupFlags : BitVec 32) (del : Bool) :
    Option (Kern S P) :=
  match k.waitQueueFirst queue with
  | some wait => wakeupLoop queue wakeupFlags del n wait k
  | none => some k

def waitCurrentSet (k : Kern S P) (queue : S) (current : P) (waitState : BitVec 32) :
    Option (Kern S P) :=
  let k := k.waitInit current (some current)
  let k := k.setProc current ⟨.sleeping, waitState⟩
  k.waitQueueAdd queue current

def waitCurrentDel (k : Kern S P) (queue : S) (wait : P) : Option (Kern S P) :=
  if k.waitInQueue wait then k.waitQueueDel queue wait else some k

/-! ## `sem.c` -/

def semInit (k : Kern S P) (sem : S) (value : ℤ) : Kern S P :=
  (k.setValue sem value).waitQueueInit sem

/-- `__up` -/
def upWith (k : Kern S P) (sem : S) (waitState : BitVec 32) : Option (Kern S P) :=
  match k.waitQueueFirst sem with
  | none => some (k.setValue sem (i32 (k.value sem + 1)))
  | some wait => do
    let proc ← (k.wait wait).proc
    if (k.proc proc).waitState = waitState then k.wakeupWait sem wait waitState true else none

/-- `__down` up to `schedule()`; the flag says that it returned 0 without sleeping. -/
def downEnter (k : Kern S P) (sem : S) (current : P) (waitState : BitVec 32) :
    Option (Kern S P × Bool) :=
  if 0 < k.value sem then some (k.setValue sem (k.value sem - 1), true)
  else do
    let k ← k.waitCurrentSet sem current waitState
    some (k.setInDown current (some sem), false)

/-- `__down` from `schedule()` on, and its result. -/
def downLeave (k : Kern S P) (sem : S) (current : P) (waitState : BitVec 32) :
    Option (BitVec 32 × Kern S P) := do
  let k ← k.waitCurrentDel sem current
  let k := k.setInDown current none
  let flags := (k.wait current).wakeupFlags
  some (if flags ≠ waitState then flags else 0, k)

def up (k : Kern S P) (sem : S) : Option (Kern S P) := k.upWith sem wtKsem

/-- The call of `down`; the flag says that it has returned. -/
def down (k : Kern S P) (sem : S) (current : P) : Option (Kern S P × Bool) :=
  k.downEnter sem current wtKsem

/-- The rest of a `down` that went to sleep. -/
def downResume (k : Kern S P) (sem : S) (current : P) : Option (Kern S P) := do
  let (flags, k) ← k.downLeave sem current wtKsem
  if flags = 0 then some k else none

def tryDown (k : Kern S P) (sem : S) : Kern S P × Bool :=
  if 0 < k.value sem then (k.setValue sem (k.value sem - 1), true) else (k, false)

/-! ## Fields -/

section
variable (k : Kern S P) (s : S) (p : P)

@[simp] theorem setValue_links (v : ℤ) : (k.setValue s v).links = k.links := rfl
@[simp] theorem setValue_wait (v : ℤ) : (k.setValue s v).wait = k.wait := rfl
@[simp] theorem setValue_proc (v : ℤ) : (k.setValue s v).proc = k.proc := rfl
@[simp] theorem setValue_inDown (v : ℤ) : (k.setValue s v).inDown = k.inDown := rfl
@[simp] theorem setValue_value (v : ℤ) (s' : S) :
    (k.setValue s v).value s' = if s' = s then v else k.value s' := by
  simp [setValue, Function.update_apply]

@[simp] theorem setWait_links (w : Wait S P) : (k.setWait p w).links = k.links := rfl
@[simp] theorem setWait_value (w : Wait S P) : (k.setWait p w).value = k.value := rfl
@[simp] theorem setWait_proc (w : Wait S P) : (k.setWait p w).proc = k.proc := rfl
@[simp] theorem setWait_inDown (w : Wait S P) : (k.setWait p w).inDown = k.inDown := rfl
@[simp] theorem setWait_wait (w : Wait S P) (q : P) :
    (k.setWait p w).wait q = if q = p then w else k.wait q := by
  simp [setWait, Function.update_apply]

@[simp] theorem setProc_links (g : Proc) : (k.setProc p g).links = k.links := rfl
@[simp] theorem setProc_value (g : Proc) : (k.setProc p g).value = k.value := rfl
@[simp] theorem setProc_wait (g : Proc) : (k.setProc p g).wait = k.wait := rfl
@[simp] theorem setProc_inDown (g : Proc) : (k.setProc p g).inDown = k.inDown := rfl
@[simp] theorem setProc_proc (g : Proc) (q : P) :
    (k.setProc p g).proc q = if q = p then g else k.proc q := by
  simp [setProc, Function.update_apply]

@[simp] theorem setInDown_links (o : Option S) : (k.setInDown p o).links = k.links := rfl
@[simp] theorem setInDown_value (o : Option S) : (k.setInDown p o).value = k.value := rfl
@[simp] theorem setInDown_wait (o : Option S) : (k.setInDown p o).wait = k.wait := rfl
@[simp] theorem setInDown_proc (o : Option S) : (k.setInDown p o).proc = k.proc := rfl
@[simp] theorem setInDown_inDown (o : Option S) (q : P) :
    (k.setInDown p o).inDown q = if q = p then o else k.inDown q := by
  simp [setInDown, Function.update_apply]

end

end Kern

end Ucore
