/-
  A timer that is in the list keeps its process (`owner_kept`): no function of the kernel but
  `timer_init` writes it.
-/
import Ucore.Schedule.SchedInv

namespace Ucore

open Intrusive DeltaList

set_option linter.unusedSectionVars false

variable {S P T : Type} [DecidableEq S] [DecidableEq P] [DecidableEq T] [Fintype T]

namespace Sched

variable {k k' : Sched S P T} {p q : P} {t u : T} {s : S} {op : SchedOp S P T}

def SameOwners (k k' : Sched S P T) : Prop := ∀ t, (k'.timer t).proc = (k.timer t).proc

/-- The result, if there is one, has the processes of timers that `k` has. -/
def KeepsOwners (k : Sched S P T) (x : Except Stop (Sched S P T)) : Prop :=
  ∀ k', x = .ok k' → SameOwners k k'

namespace KeepsOwners

variable {x : Except Stop (Sched S P T)}

theorem ok (h : SameOwners k k') : KeepsOwners k (.ok k') := fun _ e => by
  cases e
  exact h

theorem error {e : Stop} : KeepsOwners k (.error e) := fun _ h => by cases h

theorem of_eq {k₀ : Sched S P T} (h : KeepsOwners k₀ x) (ht : k₀.timer = k.timer) :
    KeepsOwners k x := fun k' e t => by rw [h k' e t, ht]

theorem bind {f : Sched S P T → Except Stop (Sched S P T)} (h : KeepsOwners k x)
    (hf : ∀ k', KeepsOwners k' (f k')) : KeepsOwners k (x >>= f) := by
  intro k₂ e
  cases x with
  | error e => cases e
  | ok k₁ => exact fun t => (hf k₁ k₂ e t).trans (h k₁ rfl t)

theorem orPanic {α : Type} {o : Option α} {f : α → Except Stop (Sched S P T)}
    (hf : ∀ a, KeepsOwners k (f a)) : KeepsOwners k (orPanic o >>= f) := by
  cases o with
  | none => exact error
  | some a => exact hf a

end KeepsOwners

theorem owners_wakeupProc (k : Sched S P T) (p : P) : KeepsOwners k (k.wakeupProc p) := by
  unfold wakeupProc schedClassEnqueue rrEnqueue
  split_ifs
  all_goals first | exact KeepsOwners.error | exact KeepsOwners.ok fun _ => rfl

theorem owners_wakeupProcIf (k : Sched S P T) (c : Prop) [Decidable c] (p : P) :
    KeepsOwners k (k.wakeupProcIf c p) := by
  unfold wakeupProcIf
  split
  · exact owners_wakeupProc k p
  · exact .ok fun _ => rfl

theorem owners_schedule (k : Sched S P T) : KeepsOwners k k.schedule := by
  unfold schedule
  refine KeepsOwners.bind (k := k) (x := (k.setTask k.current _).enqueueCurrent) ?_ fun k₁ => ?_
  · unfold enqueueCurrent schedClassEnqueue rrEnqueue
    split_ifs
    all_goals first | exact KeepsOwners.error | exact KeepsOwners.ok fun _ => rfl
  · split
    · refine KeepsOwners.bind (k := k₁) ?_ fun k₂ => .ok fun _ => rfl
      unfold rrDequeue
      split_ifs
      · exact .ok fun _ => rfl
      · exact .error
    · exact .ok fun _ => rfl

theorem owners_giveExpires (k : Sched S P T) (t : T) : SameOwners k (k.giveExpires t) := by
  unfold giveExpires
  split
  · split
    · exact (sameButTimes_setExpires _).proc
    · exact fun _ => rfl
  · exact fun _ => rfl

theorem owners_delTimer (k : Sched S P T) (t : T) : SameOwners k (k.delTimer t) := by
  unfold delTimer
  split
  · exact owners_giveExpires k t
  · exact fun _ => rfl

theorem owners_addTimerWalk : ∀ {n : ℕ} {k k' : Sched S P T} {le le' : SchedNode P T},
    addTimerWalk t n k le = some (k', le') → SameOwners k k'
  | 0, _, _, _, _, h => by cases h
  | n + 1, k, k', .timerLink next, le', h => by
    unfold addTimerWalk at h
    split at h
    · cases h
      exact (sameButTimes_setExpires _).proc
    · exact fun u => (owners_addTimerWalk h u).trans ((sameButTimes_setExpires _).proc u)
  | _ + 1, _, _, .runList, _, h | _ + 1, _, _, .runLink _, _, h | _ + 1, _, _,
    .timerList, _, h => by
    cases h
    exact fun _ => rfl

theorem owners_addTimer (k : Sched S P T) (t : T) : KeepsOwners k (k.addTimer t) := by
  unfold addTimer
  split
  · cases hw : addTimerWalk t (fuel T) k (listNext k.links .timerList) with
    | none => exact .error
    | some r =>
      obtain ⟨k₁, le⟩ := r
      have h₁ : SameOwners k k₁ := owners_addTimerWalk hw
      exact .ok h₁
  · exact .error

theorem owners_reparent {cur i : P} : ∀ {n : ℕ} {k : Sched S P T},
    KeepsOwners k (reparent cur i n k)
  | 0, _ => .error
  | n + 1, k => by
    unfold reparent
    cases (k.procs.pcb cur).cptr with
    | none => exact .ok fun _ => rfl
    | some proc =>
      dsimp only
      exact KeepsOwners.bind ((owners_wakeupProcIf _ _ _).of_eq rfl) fun k' => owners_reparent

theorem owners_doExit (k : Sched S P T) (code : ℤ) : KeepsOwners k (k.doExit code) := by
  unfold doExit
  split
  · exact .error
  · refine .orPanic fun i => ?_
    refine .orPanic fun p => ?_
    refine KeepsOwners.bind ((owners_wakeupProcIf _ _ _).of_eq rfl) fun k₁ => ?_
    exact owners_reparent.bind fun k₂ => .ok fun _ => rfl

theorem owners_doWait (k : Sched S P T) (pid : ℤ) : KeepsOwners k (k.doWait pid) := by
  unfold doWait
  refine .orPanic fun (_, found) => ?_
  refine .orPanic fun (res, s) => ?_
  dsimp only
  split
  all_goals exact .ok fun _ => rfl

theorem owners_timerLoop : ∀ {n : ℕ} {k k' : Sched S P T} {t : T} {fired : List T},
    timerLoop n k t = .ok (k', fired) → SameOwners k k'
  | 0, _, _, _, _, h => by cases h
  | n + 1, k, k', t, fired, h => by
    unfold timerLoop at h
    split at h
    · dsimp only at h
      split at h
      · cases hw : k.wakeupProc (k.timer t).proc with
        | error e =>
          rw [hw] at h
          cases h
        | ok k₁ =>
          simp only [hw, bind, Except.bind] at h
          have h₁ : SameOwners k (k₁.delTimer t) := fun u =>
            (owners_delTimer k₁ t u).trans (owners_wakeupProc k _ _ hw u)
          split at h
          · rename_i next _
            cases hl : timerLoop n (k₁.delTimer t) next with
            | error e =>
              rw [hl] at h
              cases h
            | ok r =>
              rw [hl] at h
              cases h
              exact fun u => (owners_timerLoop hl u).trans (h₁ u)
          · cases h
            exact h₁
      · cases h
    · cases h
      exact fun _ => rfl

theorem owners_runTimerList (k : Sched S P T) : KeepsOwners k k.runTimerList := by
  intro k' h
  unfold runTimerList at h
  cases hr : k.runTimers with
  | error e =>
    rw [hr] at h
    cases h
  | ok r =>
    obtain ⟨k₁, fired⟩ := r
    have h₁ : SameOwners k k₁ := by
      unfold runTimers at hr
      split at hr
      · split at hr
        · exact fun u => (owners_timerLoop hr u).trans ((sameButTimes_setExpires _).proc u)
        · cases hr
      · cases hr
        exact fun _ => rfl
    rw [hr] at h
    cases h
    intro u
    rw [(same_procTick (k := k₁.record (.tick fired))).1.timer]
    exact h₁ u

theorem owners_resume (k : Sched S P T) (c : Cont S T) : KeepsOwners k (k.resume c) := by
  cases c with
  | plain => exact .ok fun _ => rfl
  | sleep t => exact .ok (owners_delTimer k t)
  | down s =>
    change KeepsOwners k (k.downResume s)
    unfold downResume
    dsimp only
    split
    · exact .ok fun _ => rfl
    · exact .error
  | wait pid =>
    change KeepsOwners k (if (k.task k.current).exiting then k.doExit (-eKilled) else k.doWait pid)
    split
    · exact owners_doExit k _
    · exact owners_doWait k pid
  | exit => exact .error

theorem owners_startTimer (k : Sched S P T) (t : T) (p : P) (n : ℕ) :
    KeepsOwners (k.timerInit t p n) (k.startTimer t p n) :=
  KeepsOwners.bind (owners_addTimer _ t) fun _ => .ok fun _ => rfl

theorem timerInit_of_linked {n : ℕ} (ht : k.Linked t) (hu : k.Free u) :
    (k.timerInit u p n).timer t = k.timer t := by
  have hne : t ≠ u := fun e => hu.1 (e ▸ ht)
  simp [timerInit, hne]

/-- **A timer keeps its process** while it is in the list. -/
theorem owner_kept (hl : k.Legal op) (ht : k.Linked t) (hs : k.step op = .ok k') :
    (k'.timer t).proc = (k.timer t).proc := by
  cases op with
  | tick => exact owners_runTimerList k k' hs t
  | wakeup p => exact owners_wakeupProc k p k' hs t
  | schedule =>
    change k.callSchedule = .ok k' at hs
    unfold callSchedule at hs
    split at hs
    all_goals exact (owners_schedule _ k' hs t)
  | resume =>
    unfold step at hs
    dsimp only at hs
    split at hs
    · exact owners_resume k _ k' hs t
    · cases hs
  | yield | forkFail | semInit s v | block ws =>
    cases hs
    rfl
  | forkBegin q =>
    cases hs
    rcases doForkBegin_cases k q with e | ⟨k', e, -, -, -, -, -, hk'⟩
    · rw [e]
    · rw [e, hk']
  | forkEnd =>
    have hk : KeepsOwners k k.doForkEnd :=
      .orPanic fun q => .orPanic fun r => .orPanic fun s =>
        KeepsOwners.bind ((owners_wakeupProc _ _).of_eq rfl) fun k₂ => .ok fun _ => rfl
    exact hk k' hs t
  | exit code => exact owners_doExit k code k' hs t
  | wait pid => exact owners_doWait k pid k' hs t
  | sleep u n =>
    change k.doSleep u n = .ok k' at hs
    unfold doSleep at hs
    split at hs
    · cases hs
      rfl
    · have hk : KeepsOwners (k.timerInit u k.current n) (do
          let k ← ((k.timerInit u k.current n).setRun k.current ⟨.sleeping, wtTimer⟩).addTimer u
          .ok ((k.record (.add u n)).setPc k.current (.call (.sleep u)))) :=
        KeepsOwners.bind ((owners_addTimer _ u).of_eq rfl) fun k₁ => .ok fun _ => rfl
      exact (hk k' hs t).trans (congrArg Timer.proc (timerInit_of_linked ht hl.2.2.2))
  | kill pid =>
    have hk : KeepsOwners k (k.doKill pid) := .orPanic fun o => by
      cases o with
      | none => exact .ok fun _ => rfl
      | some p =>
        dsimp only
        unfold killProc
        split
        · exact (owners_wakeupProcIf _ _ _).of_eq rfl
        · exact .ok fun _ => rfl
    exact hk k' hs t
  | up s =>
    change k.up s = .ok k' at hs
    unfold up at hs
    split at hs
    · cases hs
      rfl
    · split at hs
      · exact (owners_wakeupProc _ _ k' hs t)
      · cases hs
  | down s =>
    cases hs
    unfold down
    split <;> rfl
  | tryDown s =>
    cases hs
    split <;> rfl
  | addTimer u p n =>
    exact (owners_startTimer k u p n k' hs t).trans
      (congrArg Timer.proc (timerInit_of_linked ht hl.2.2.2.1))
  | delTimer u =>
    cases hs
    exact owners_delTimer k u t

end Sched

end Ucore
