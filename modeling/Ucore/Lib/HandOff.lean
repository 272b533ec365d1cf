/-
  Counting semaphores that hand their permits over.

  A semaphore (`Sema`) is a number of free permits and a queue of waiting clients.  `up` gives the
  permit to the first client in the queue, if there is one, and frees it otherwise.  The steps
  report what they did (`Ev`), and `Reach v a h` says that a semaphore created with `v` permits is
  in state `a` after the history `h`.

  * `Reach.idle`: no permit is free while a client waits;
  * `Reach.conserved`: permits are neither lost nor made;
  * `Reach.fifo`: the clients are served in the order in which they came.
-/
import Mathlib.Data.List.Basic
import Mathlib.Tactic.SplitIfs

namespace HandOff

variable {P : Type*}

structure Sema (P : Type*) where
  value : ℕ
  queue : List P

/-- What a step did: a permit was returned, taken at once, or given to a waiting client; a client
    started to wait. -/
inductive Ev (P : Type*) where
  | up
  | take (p : P)
  | block (p : P)
  | grant (p : P)

namespace Ev

def isUp : Ev P → Bool
  | up => true
  | _ => false

/-- A client got a permit. -/
def isAcquire : Ev P → Bool
  | take _ | grant _ => true
  | _ => false

def blocked : Ev P → Option P
  | block p => some p
  | _ => none

def granted : Ev P → Option P
  | grant p => some p
  | _ => none

end Ev

/-! ## Steps -/

inductive Op (P : Type*) where
  | up
  | down (p : P)
  | tryDown (p : P)

namespace Sema

def up (a : Sema P) : Sema P × List (Ev P) :=
  match a.queue with
  | [] => ({ a with value := a.value + 1 }, [.up])
  | p :: ps => ({ a with queue := ps }, [.up, .grant p])

def down (a : Sema P) (p : P) : Sema P × List (Ev P) :=
  if 0 < a.value then ({ a with value := a.value - 1 }, [.take p])
  else ({ a with queue := a.queue ++ [p] }, [.block p])

def tryDown (a : Sema P) (p : P) : Sema P × List (Ev P) :=
  if 0 < a.value then ({ a with value := a.value - 1 }, [.take p]) else (a, [])

def step (a : Sema P) : Op P → Sema P × List (Ev P)
  | .up => a.up
  | .down p => a.down p
  | .tryDown p => a.tryDown p

end Sema

/-! ## Histories -/

/-- The permits returned, and the permits taken, in a history. -/
def ups (h : List (Ev P)) : ℕ := h.countP Ev.isUp
def acquired (h : List (Ev P)) : ℕ := h.countP Ev.isAcquire

/-- The clients that started to wait, and those that were served, in order. -/
def arrivals (h : List (Ev P)) : List P := h.filterMap Ev.blocked
def grants (h : List (Ev P)) : List P := h.filterMap Ev.granted

section
variable (h h' : List (Ev P)) (p : P)

@[simp] theorem ups_append : ups (h ++ h') = ups h + ups h' := List.countP_append

@[simp] theorem acquired_append : acquired (h ++ h') = acquired h + acquired h' :=
  List.countP_append

@[simp] theorem arrivals_append : arrivals (h ++ h') = arrivals h ++ arrivals h' :=
  List.filterMap_append

@[simp] theorem grants_append : grants (h ++ h') = grants h ++ grants h' := List.filterMap_append

@[simp] theorem counts_nil : ups ([] : List (Ev P)) = 0 ∧ acquired ([] : List (Ev P)) = 0 ∧
    arrivals ([] : List (Ev P)) = [] ∧ grants ([] : List (Ev P)) = [] := ⟨rfl, rfl, rfl, rfl⟩

@[simp] theorem counts_up : ups [Ev.up (P := P)] = 1 ∧ acquired [Ev.up (P := P)] = 0 ∧
    arrivals [Ev.up (P := P)] = [] ∧ grants [Ev.up (P := P)] = [] := ⟨rfl, rfl, rfl, rfl⟩

@[simp] theorem counts_take : ups [Ev.take p] = 0 ∧ acquired [Ev.take p] = 1 ∧
    arrivals [Ev.take p] = [] ∧ grants [Ev.take p] = [] := ⟨rfl, rfl, rfl, rfl⟩

@[simp] theorem counts_block : ups [Ev.block p] = 0 ∧ acquired [Ev.block p] = 0 ∧
    arrivals [Ev.block p] = [p] ∧ grants [Ev.block p] = [] := ⟨rfl, rfl, rfl, rfl⟩

@[simp] theorem counts_grant : ups [.up, Ev.grant p] = 1 ∧ acquired [.up, Ev.grant p] = 1 ∧
    arrivals [.up, Ev.grant p] = [] ∧ grants [.up, Ev.grant p] = [p] := ⟨rfl, rfl, rfl, rfl⟩

end

/-- The states and histories of a semaphore created with `v` permits. -/
inductive Reach (v : ℕ) : Sema P → List (Ev P) → Prop where
  | init : Reach v ⟨v, []⟩ []
  | step {a : Sema P} {h : List (Ev P)} (op : Op P) :
      Reach v a h → Reach v (a.step op).1 (h ++ (a.step op).2)

/-- What a step keeps. -/
structure Balanced (v : ℕ) (a : Sema P) (h : List (Ev P)) : Prop where
  idle : 0 < a.value → a.queue = []
  conserved : v + ups h = a.value + acquired h
  fifo : arrivals h = grants h ++ a.queue

variable {v : ℕ} {a : Sema P} {h : List (Ev P)} {p : P}

theorem Balanced.up (b : Balanced v a h) : Balanced v a.up.1 (h ++ a.up.2) := by
  obtain ⟨hi, hc, hf⟩ := b
  cases hq : a.queue with
  | nil =>
    simp only [Sema.up, hq]
    exact ⟨fun _ => by simp, by simp; omega, by simpa [hq] using hf⟩
  | cons p ps =>
    have h0 : ¬ 0 < a.value := fun hv => by rw [hi hv] at hq; cases hq
    simp only [Sema.up, hq]
    exact ⟨fun hv => absurd hv h0, by simp; omega, by simpa [hq] using hf⟩

theorem Balanced.take (b : Balanced v a h) (hv : 0 < a.value) :
    Balanced v { a with value := a.value - 1 } (h ++ [.take p]) := by
  obtain ⟨hi, hc, hf⟩ := b
  exact ⟨fun _ => hi hv, by simp; omega, by simpa using hf⟩

theorem Balanced.step (b : Balanced v a h) : ∀ op : Op P,
    Balanced v (a.step op).1 (h ++ (a.step op).2)
  | .up => b.up
  | .down p => by
    simp only [Sema.step, Sema.down]
    split_ifs with hv
    · exact b.take hv
    · exact ⟨fun hv' => absurd hv' hv, by simpa using b.conserved, by simp [b.fifo]⟩
  | .tryDown p => by
    simp only [Sema.step, Sema.tryDown]
    split_ifs with hv
    · exact b.take hv
    · simpa using b

/-- **Conservation and order**, on every run. -/
theorem Reach.balanced (r : Reach v a h) : Balanced v a h := by
  induction r with
  | init => exact ⟨fun _ => rfl, by simp, by simp⟩
  | step op _ ih => exact ih.step op

end HandOff
