/-
  `kern/fs/devs/dev_stdin.c`: the keyboard buffer and its readers.

  `P` are the processes and `C` the characters, of which `0` is `'\0'`.  Interrupts are masked in
  `dev_stdin_write` and, except across `schedule()`, in `dev_stdin_read`.  So a write is one step,
  and a read is one step up to the `schedule()` in which it waits (a `Frame`) and one step from
  there to the next.  A process that waits can only be resumed when it is runnable.

  The histories `written`, `log` and `returns` are not in the source: the characters written, the
  characters delivered with the reader that took each, and the reads that have returned.
-/
import Ucore.Lib.Machine
import Ucore.Lib.RingBuffer
import Ucore.Sync.Sem

namespace Ucore

open Function (update)

def stdinBufsize : ℕ := 4096

/-- The activation record of a `dev_stdin_read` that waits; `buf` is what it has stored behind its
    pointer.  No caller asks for more than `IOBUF_SIZE` characters, so that `ret` is far from the
    end of an `int`.  `interrupted` is not in the source: `do_kill` has woken the process in this
    call. -/
structure Frame (C : Type) where
  len : ℕ
  ret : ℕ
  buf : List C
  interrupted : Bool

structure StdinReturn (P C : Type) where
  proc : P
  frame : Frame C

structure Stdin (P C : Type) where
  /-- The wait queue of the device, which is the only one, and the processes. -/
  kern : Kern Unit P
  flags : P → BitVec 32
  buffer : ℕ → C
  rpos : ℕ
  wpos : ℕ
  frame : P → Option (Frame C)
  written : List C
  log : List (P × C)
  returns : List (StdinReturn P C)

inductive StdinOp (P C : Type) where
  /-- `n` rounds are allowed for `wakeup_queue`. -/
  | write (n : ℕ) (c : C)
  | read (p : P) (len : ℕ)
  | resume (p : P)
  | kill (p : P)
  /-- Anything a process does outside of `dev_stdin_read`: it sleeps elsewhere, is woken, exits. -/
  | other (p : P) (g : Proc)

variable {P C : Type} [DecidableEq P] [DecidableEq C] [Zero C]

namespace Stdin

def devStdinWrite (n : ℕ) (c : C) (s : Stdin P C) : Option (Stdin P C) :=
  if c ≠ 0 then do
    let s := { s with buffer := update s.buffer (s.wpos % stdinBufsize) c }
    let s := if s.wpos - s.rpos < stdinBufsize then { s with wpos := s.wpos + 1 } else s
    let kern ←
      if !s.kern.waitQueueEmpty () then s.kern.wakeupQueue n () wtKbd true else some s.kern
    some { s with kern := kern, written := s.written ++ [c] }
  else some s

/-- The read returns. -/
def leave (s : Stdin P C) (current : P) (fr : Frame C) : Stdin P C :=
  { s with returns := s.returns ++ [⟨current, fr⟩] }

/-- The loop of `dev_stdin_read`, up to its end or its `schedule()`; the number is `len - ret`. -/
def readLoop (current : P) : ℕ → Frame C → Stdin P C → Option (Stdin P C)
  | 0, fr, s => some (s.leave current fr)
  | n + 1, fr, s =>
    if s.rpos < s.wpos then
      let c := s.buffer (s.rpos % stdinBufsize)
      readLoop current n { fr with ret := fr.ret + 1, buf := fr.buf ++ [c] }
        { s with rpos := s.rpos + 1, log := s.log ++ [(current, c)] }
    else do
      let kern ← s.kern.waitCurrentSet () current wtKbd
      some { s with kern := kern, frame := update s.frame current (some fr) }

def devStdinRead (current : P) (len : ℕ) (s : Stdin P C) : Option (Stdin P C) :=
  s.readLoop current len ⟨len, 0, [], false⟩

/-- `dev_stdin_read` from `schedule()` on. -/
def devStdinResume (current : P) (s : Stdin P C) : Option (Stdin P C) := do
  let fr ← s.frame current
  let kern ← s.kern.waitCurrentDel () current
  let s := { s with kern := kern, frame := update s.frame current none }
  if (kern.wait current).wakeupFlags = wtKbd then s.readLoop current (fr.len - fr.ret) fr
  else some (s.leave current fr)

/-- `do_kill` of the process that `find_proc` has found. -/
def doKill (proc : P) (s : Stdin P C) : Option (KillResult × Stdin P C) :=
  if s.flags proc &&& pfExiting = 0 then do
    let s := { s with flags := update s.flags proc (s.flags proc ||| pfExiting) }
    if (s.kern.proc proc).waitState &&& wtInterrupted ≠ 0 then do
      let kern ← s.kern.wakeupProc proc
      let frame := (s.frame proc).map fun fr => { fr with interrupted := true }
      some (.ok, { s with kern := kern, frame := update s.frame proc frame })
    else some (.ok, s)
  else some (.killed, s)

def step (s : Stdin P C) : StdinOp P C → Option (Stdin P C)
  | .write n c => s.devStdinWrite n c
  | .read p len => s.devStdinRead p len
  | .resume p => s.devStdinResume p
  | .kill p => (s.doKill p).map Prod.snd
  | .other p g => some { s with kern := s.kern.setProc p g }

/-- A process that waits does nothing until it is runnable again. -/
def Legal (s : Stdin P C) : StdinOp P C → Prop
  | .write _ _ => True
  | .read p _ => s.frame p = none
  | .resume p => s.frame p ≠ none ∧ (s.kern.proc p).state = .runnable
  | .kill _ => True
  | .other p _ => s.frame p = none

/-- The unread characters, the oldest first. -/
def unread (s : Stdin P C) : List C :=
  RingBuffer.contents stdinBufsize s.buffer s.rpos s.wpos

end Stdin

end Ucore
