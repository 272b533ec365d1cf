/-
  Runs of the semaphores.

  `SemSys` is the kernel state together with the history of every semaphore: the permits returned,
  the permits taken, who waited and who was woken.  The steps are the calls of `sem_init`, `up`,
  `down` and `try_down`, the return of a `down` that was woken, and whatever else happens to
  processes that are not in a `down`.

  * `SemSys.Inv.step`: a legal step does not fail an assertion and keeps the invariant;
  * `SemSys.up_wakes_or_counts`: an `up` either wakes one process or adds a permit;
  * `SemSys.semaphores_conserve`: what holds in every state reached.
-/
import Ucore.Sync.SemInv
import Ucore.Lib.Machine

namespace Ucore

open Intrusive HandOff

set_option linter.unusedSectionVars false

variable {S P : Type} [DecidableEq S] [DecidableEq P]

/-- The kernel state, the semaphores created so far with their initial values, and their
    histories. -/
structure SemSys (S P : Type) where
  kern : Kern S P
  born : S → Option ℕ
  hist : S → List (Ev P)

inductive SemOp (S P : Type) where
  | semInit (s : S) (value : ℕ)
  | up (s : S)
  | down (s : S) (p : P)
  | downResume (s : S) (p : P)
  | tryDown (s : S) (p : P)
  /-- Anything that does not touch a semaphore: `p` sleeps elsewhere, is woken, or exits. -/
  | other (p : P) (g : Proc)

namespace SemSys

def record (w : SemSys S P) (s : S) (h : List (Ev P)) : SemSys S P :=
  { w with hist := Function.update w.hist s (w.hist s ++ h) }

def step (w : SemSys S P) : SemOp S P → Option (SemSys S P)
  | .semInit s v => some { w with
      kern := w.kern.semInit s v
      born := Function.update w.born s (some v)
      hist := Function.update w.hist s [] }
  | .up s => do
    let k ← w.kern.up s
    match w.kern.waitQueueFirst s with
    | none => some ({ w with kern := k }.record s [.up])
    | some p => some ({ w with kern := k }.record s [.up, .grant p])
  | .down s p => do
    let (k, returned) ← w.kern.down s p
    some ({ w with kern := k }.record s [if returned then .take p else .block p])
  | .downResume s p => do
    let k ← w.kern.downResume s p
    some { w with kern := k }
  | .tryDown s p =>
    let (k, ret) := w.kern.tryDown s
    some ({ w with kern := k }.record s (if ret then [.take p] else []))
  | .other p g => some { w with kern := w.kern.setProc p g }

/-- A step that can happen: semaphores are created before they are used, the count stays in the
    range of an `int`, and a process in a `down` does nothing until it is runnable again. -/
def Legal (w : SemSys S P) : SemOp S P → Prop
  | .semInit s v => w.born s = none ∧ v < 2 ^ 31
  | .up s => w.born s ≠ none ∧ w.kern.value s + 1 < 2 ^ 31
  | .down s p => w.born s ≠ none ∧ w.kern.inDown p = none
  | .downResume s p => w.kern.inDown p = some s ∧ (w.kern.proc p).state = .runnable
  | .tryDown s p => w.born s ≠ none ∧ w.kern.inDown p = none
  | .other p _ => w.kern.inDown p = none

/-- The semaphores are hand-off semaphores with these histories. -/
def Inv (w : SemSys S P) : Prop :=
  ∃ a : S → Sema P, w.kern.Ok (fun s => w.born s ≠ none) a ∧
    ∀ s v, w.born s = some v → HandOff.Reach v (a s) (w.hist s)

variable {w w' : SemSys S P} {s : S} {p : P} {op : SemOp S P}

/-- Taking an abstract step of `s` and recording it. -/
theorem inv_record {k : Kern S P} {a : S → Sema P}
    (hr : ∀ s v, w.born s = some v → HandOff.Reach v (a s) (w.hist s)) (op : HandOff.Op P)
    (o : k.Ok (fun s => w.born s ≠ none) (Function.update a s ((a s).step op).1)) :
    ({ w with kern := k }.record s ((a s).step op).2).Inv := by
  refine ⟨_, o, fun s' v hv => ?_⟩
  by_cases h : s' = s
  · subst h; simpa [record] using (hr s' v hv).step op
  · simpa [record, h] using hr s' v hv

/-- **One step.** -/
theorem Inv.step (h : w.Inv) (hl : w.Legal op) : ∃ w', w.step op = some w' ∧ w'.Inv := by
  obtain ⟨a, o, hr⟩ := h
  cases op with
  | semInit s v =>
    refine ⟨_, rfl, Function.update a s ⟨v, []⟩, ?_, fun s' v' hv => ?_⟩
    · have hlive : (fun s' => s' = s ∨ w.born s' ≠ none) =
          fun s' => Function.update w.born s (some v) s' ≠ none := by
        funext s'; by_cases h : s' = s
        · subst h; simp
        · simp [h]
      exact hlive ▸ Kern.semInit_spec o (by simp [hl.1]) v
    · by_cases h : s' = s
      · subst h
        obtain rfl : v = v' := by simpa using hv
        simpa using HandOff.Reach.init (P := P)
      · simpa [h] using hr s' v' (by simpa [h] using hv)
  | up s =>
    have hv : (a s).value + 1 < 2 ^ 31 := by
      have := hl.2; rw [o.value s hl.1] at this; exact_mod_cast this
    obtain ⟨k, hk, ok, -⟩ := Kern.up_spec o hl.1 hv
    have hrec := inv_record hr .up ok
    have hring := o.ring s hl.1
    cases hq : (a s).queue with
    | nil =>
      rw [hq] at hring
      have hf := Kern.waitQueueFirst_nil hring
      exact ⟨_, by simp only [SemSys.step, hk, hf, Option.bind_eq_bind, Option.bind_some]; rfl,
        by simpa [Sema.step, Sema.up, hq] using hrec⟩
    | cons p ps =>
      rw [hq] at hring
      have hf := Kern.waitQueueFirst_cons hring
      exact ⟨_, by simp only [SemSys.step, hk, hf, Option.bind_eq_bind, Option.bind_some]; rfl,
        by simpa [Sema.step, Sema.up, hq] using hrec⟩
  | down s p =>
    obtain ⟨k, hk, ok, -⟩ := Kern.down_spec o hl.1 hl.2
    have hrec := inv_record hr (.down p) ok
    refine ⟨_, by simp only [SemSys.step, hk, Option.bind_eq_bind, Option.bind_some]; rfl, ?_⟩
    by_cases hv : 0 < (a s).value
    · simpa [Sema.step, Sema.down, hv] using hrec
    · simpa [Sema.step, Sema.down, hv] using hrec
  | downResume s p =>
    obtain ⟨-, hk, ok⟩ := Kern.downResume_spec o hl.1 hl.2
    exact ⟨{ w with kern := w.kern.setInDown p none },
      by simp only [SemSys.step, hk, Option.bind_eq_bind, Option.bind_some], a, ok, hr⟩
  | tryDown s p =>
    obtain ⟨hret, ok⟩ := Kern.tryDown_spec (p := p) o hl.1
    have hrec := inv_record hr (.tryDown p) ok
    refine ⟨{ w with kern := (w.kern.tryDown s).1 }.record s
      (if (w.kern.tryDown s).2 then [.take p] else []), rfl, ?_⟩
    rw [hret]
    by_cases hv : 0 < (a s).value
    · simpa [Sema.step, Sema.tryDown, hv] using hrec
    · simpa [Sema.step, Sema.tryDown, hv] using hrec
  | other p g => exact ⟨_, rfl, a, Kern.Ok.setProc o hl g, hr⟩

/-- At the start no semaphore has been created and no process is in a `down`. -/
def machine (S P : Type) [DecidableEq S] [DecidableEq P] : Machine (SemSys S P) (SemOp S P) where
  Init w := (∀ s, w.born s = none) ∧ ∀ p, w.kern.inDown p = none
  Legal := Legal
  step := step

theorem reach_inv (h : (machine S P).Reach w) : w.Inv := by
  refine h.invariant (fun w ⟨hb, hd⟩ => ?_) fun w op hi hl => hi.step hl
  exact ⟨fun _ => ⟨0, []⟩, ⟨by simp [hb], by simp [hb], by simp [hb],
    fun p s hp => by simp [hd] at hp⟩, by simp [hb]⟩

/-- What an `up` does to the count and to the processes: it adds a permit and touches no process, or
    it wakes exactly one and leaves the count alone. -/
def UpEffect (k k' : Kern S P) (s : S) : Prop :=
  (k.waitQueueFirst s = none ∧ k'.value s = k.value s + 1 ∧ k'.proc = k.proc) ∨
  ∃ p, k.waitQueueFirst s = some p ∧ k.inDown p = some s ∧ k'.value s = k.value s ∧
    (k.proc p).state = .sleeping ∧ (k'.proc p).state = .runnable ∧
    (k'.wait p).wakeupFlags = wtKsem ∧ ∀ q ≠ p, k'.proc q = k.proc q

/-- **An `up` wakes one process or adds a permit.** -/
theorem up_wakes_or_counts (h : w.Inv) (hl : w.Legal (.up s)) {k' : Kern S P}
    (hk : w.kern.up s = some k') : UpEffect w.kern k' s := by
  obtain ⟨a, o, -⟩ := h
  have hv : (a s).value + 1 < 2 ^ 31 := by
    have := hl.2; rw [o.value s hl.1] at this; exact_mod_cast this
  obtain ⟨k, hk', ok, -, hframe, hwoken⟩ := Kern.up_spec o hl.1 hv
  obtain rfl : k = k' := by rw [hk', Option.some.injEq] at hk; exact hk
  have hring := o.ring s hl.1
  have hval := ok.value s hl.1
  simp only [Function.update_self] at hval
  cases hq : (a s).queue with
  | nil =>
    rw [hq] at hring
    refine Or.inl ⟨Kern.waitQueueFirst_nil hring, ?_, funext fun p => (hframe p (by simp [hq])).1⟩
    rw [hval, o.value s hl.1]; simp [Sema.up, hq]
  | cons p ps =>
    rw [hq] at hring
    obtain ⟨hin, hproc, -⟩ := o.asleep s hl.1 p (by simp [hq])
    obtain ⟨h1, h2⟩ := hwoken p (by simp [hq])
    refine Or.inr ⟨p, Kern.waitQueueFirst_cons hring, hin, ?_, by rw [hproc], by rw [h1], h2,
      fun q hqp => (hframe q (by simp [hq, hqp.symm])).1⟩
    rw [hval, o.value s hl.1]; simp [Sema.up, hq]

/-- The semaphore `s`, created with `v` permits, has kept its permits and its order: `q` are the
    processes in its wait queue. -/
def Conserved (w : SemSys S P) (s : S) (v : ℕ) : Prop :=
  ∃ q : List P, Circ w.kern.links (.waitHead s) (waitLinks q) ∧
    (∀ p ∈ q, w.kern.inDown p = some s ∧ (w.kern.proc p).state = .sleeping) ∧
    0 ≤ w.kern.value s ∧ (0 < w.kern.value s → w.kern.waitQueueEmpty s = true) ∧
    (v : ℤ) + ups (w.hist s) = w.kern.value s + acquired (w.hist s) ∧
    arrivals (w.hist s) = grants (w.hist s) ++ q

/-- **Conservation and hand-off.** In every state reached, every semaphore created has kept its
    permits and serves its waiters in order of arrival; no legal step (the return of a `down`
    among them) fails an assertion; and an `up` wakes exactly one waiter or adds a permit. -/
theorem semaphores_conserve (h : (machine S P).Reach w) :
    (∀ s v, w.born s = some v → w.Conserved s v) ∧
    (∀ op, w.Legal op → ∃ w', w.step op = some w') ∧
    ∀ s k', w.Legal (.up s) → w.kern.up s = some k' → UpEffect w.kern k' s := by
  have hi := reach_inv h
  refine ⟨fun s v hv => ?_, fun op hl => ?_, fun s k' hl hk => up_wakes_or_counts hi hl hk⟩
  · obtain ⟨a, o, hr⟩ := hi
    have hs : w.born s ≠ none := by simp [hv]
    obtain ⟨hidle, hcons, hfifo⟩ := (hr s v hv).balanced
    have hval := o.value s hs
    refine ⟨(a s).queue, o.ring s hs, fun p hp => ?_, by omega, fun hpos => ?_, by omega, hfifo⟩
    · obtain ⟨h1, h2, -⟩ := o.asleep s hs p hp
      exact ⟨h1, by rw [h2]⟩
    · rw [Kern.waitQueueEmpty, listEmpty_iff (o.ring s hs), hidle (by omega)]; rfl
  · obtain ⟨w', hw', -⟩ := hi.step hl
    exact ⟨w', hw'⟩

instance (w : SemSys S P) : ∀ op, Decidable (w.Legal op)
  | .semInit _ _ | .up _ | .down _ _ | .downResume _ _ | .tryDown _ _ =>
    inferInstanceAs (Decidable (_ ∧ _))
  | .other _ _ => inferInstanceAs (Decidable (_ = _))

instance (w : SemSys S P) (op : SemOp S P) : Decidable ((machine S P).Legal w op) :=
  inferInstanceAs (Decidable (w.Legal op))

/-- One semaphore and any number of processes, nothing started. -/
def idleSys : SemSys Unit ℕ :=
  ⟨⟨fun _ => 0, ⟨id, id⟩, fun _ => ⟨none, 0, ()⟩, fun _ => ⟨.runnable, 0⟩, fun _ => none⟩,
    fun _ => none, fun _ => []⟩

/-- Two processes wait for a semaphore created with one permit that a third one holds; the first of
    them is woken and returns. -/
theorem semaphores_conserve_two_waiters : ∃ w, (machine Unit ℕ).Reach w ∧
    w.kern.waitQueueFirst () = some 3 ∧
    (∀ s v, w.born s = some v → w.Conserved s v) ∧
    (∀ op, w.Legal op → ∃ w', w.step op = some w') ∧
    ∀ s k', w.Legal (.up s) → w.kern.up s = some k' → UpEffect w.kern k' s := by
  have h : ∃ w, (machine Unit ℕ).run idleSys [.semInit () 1, .down () 1, .down () 2, .down () 3,
      .up (), .downResume () 2] = some w ∧ w.kern.waitQueueFirst () = some 3 :=
    ⟨_, rfl, by decide +kernel⟩
  obtain ⟨w, hw, hf⟩ := h
  have h0 : (machine Unit ℕ).Reach idleSys := .init ⟨fun _ => rfl, fun _ => rfl⟩
  have hr := h0.run hw
  exact ⟨w, hr, hf, semaphores_conserve hr⟩

end SemSys

end Ucore
