/-
  The steps of the scheduler, and the invariant of its runs.

  The steps are the timer interrupt, the wakeups, `schedule()` and the return from it, and the
  system calls and semaphore operations that put processes to sleep and wake them.

  * `Inv`: the process table, the run queue, the timers, and where processes are;
  * `Rest.move`: what a step of the current process must leave alone;
  * `Inv.tick`, `Inv.up`, `Inv.sleeps`, `Inv.scheduleAs`, `Inv.runs`: steps that keep it.
-/
import Ucore.Schedule.Timers

namespace Ucore

open Intrusive DeltaList

set_option linter.unusedSectionVars false

inductive SchedOp (S P T : Type) where
  /-- The timer interrupt: `run_timer_list`. -/
  | tick
  /-- A wakeup from elsewhere in the kernel. -/
  | wakeup (proc : P)
  | schedule
  /-- `schedule()` returns. -/
  | resume
  | yield
  | forkBegin (proc : P)
  | forkFail
  | forkEnd
  | exit (errorCode : ℤ)
  | wait (pid : ℤ)
  | sleep (timer : T) (time : ℕ)
  | kill (pid : ℤ)
  | semInit (sem : S) (value : ℤ)
  | up (sem : S)
  | down (sem : S)
  | tryDown (sem : S)
  | block (waitState : BitVec 32)
  | addTimer (timer : T) (proc : P) (expires : ℕ)
  | delTimer (timer : T)

variable {S P T : Type} [DecidableEq S] [DecidableEq P] [DecidableEq T] [Fintype T]

namespace Sched

variable {k k' : Sched S P T} {p q : P} {t u : T} {s : S} {op : SchedOp S P T}

/-! ## Steps -/

def callSchedule (k : Sched S P T) : Except Stop (Sched S P T) :=
  match k.pc k.current with
  | .call c => (k.setPc k.current (.inside c)).schedule
  | _ => (k.setPc k.current (.inside .plain)).schedule

/-- `timer_init` and `add_timer`. -/
def startTimer (k : Sched S P T) (timer : T) (proc : P) (expires : ℕ) :
    Except Stop (Sched S P T) := do
  let k ← (k.timerInit timer proc expires).addTimer timer
  .ok (k.record (.add timer expires))

def step (k : Sched S P T) : SchedOp S P T → Except Stop (Sched S P T)
  | .tick => k.runTimerList
  | .wakeup proc => k.wakeupProc proc
  | .schedule => k.callSchedule
  | .resume =>
    match k.pc k.current with
    | .inside c => k.resume c
    | _ => .error .panic
  | .yield => .ok k.doYield
  | .forkBegin proc => .ok (k.doForkBegin proc)
  | .forkFail => .ok k.doForkFail
  | .forkEnd => k.doForkEnd
  | .exit errorCode => k.doExit errorCode
  | .wait pid => k.doWait pid
  | .sleep timer time => k.doSleep timer time
  | .kill pid => k.doKill pid
  | .semInit sem value => .ok (k.semInit sem value)
  | .up sem => k.up sem
  | .down sem => .ok (k.down sem)
  | .tryDown sem => .ok (if 0 < k.value sem then k.takePermit sem else k)
  | .block waitState => .ok (k.block waitState)
  | .addTimer timer proc expires => k.startTimer timer proc expires
  | .delTimer timer => .ok ((k.delTimer timer).record (.del timer))

/-- Where `p` is when it waits for `c`: about to call `schedule()`, or inside. -/
def At (k : Sched S P T) (p : P) (c : Cont S T) : Prop := k.pc p = .call c ∨ k.pc p = .inside c

def Linked (k : Sched S P T) (t : T) : Prop :=
  k.inited t = true ∧ listEmpty k.links (.timerLink t) = false

def Slept (k : Sched S P T) (t : T) : Prop := ∃ p ∈ k.live, k.At p (.sleep t)

/-- The place of a timer can be used for a new one. -/
def Free (k : Sched S P T) (t : T) : Prop := ¬k.Linked t ∧ ¬k.Slept t

/-- No timers but those of `do_sleep` will wake `p`.  (`do_sleep` is the only user of timers in the
    kernel; others must delete theirs before they exit, or wait for what is not interruptible.) -/
def Quiet (k : Sched S P T) (p : P) : Prop :=
  ∀ t, k.Linked t → (k.timer t).proc = p → k.Slept t

/-- The current process is not in the middle of something. -/
def Running (k : Sched S P T) : Prop := k.pc k.current = .run

/-- The current process may go to sleep, and be woken only if `waitState` says so. -/
def MayBlock (k : Sched S P T) (waitState : BitVec 32) : Prop :=
  k.Running ∧ k.current ≠ k.procs.idleproc ∧
    (waitState = 0 ∨ waitState &&& wtInterrupted ≠ 0 ∨ k.Quiet k.current)

/-- The steps that callers take: system calls are made by a process that runs, and that is not in
    another one; `idleproc` does not sleep; process structures and timers are not used twice. -/
def Legal (k : Sched S P T) : SchedOp S P T → Prop
  | .tick => True
  | .wakeup p => p ∈ k.live
  | .schedule =>
    match k.pc k.current with
    | .inside _ => False
    | _ => True
  | .resume =>
    match k.pc k.current with
    | .inside (.wait _) => k.Quiet k.current
    | .inside _ => True
    | _ => False
  | .yield | .kill _ | .up _ | .tryDown _ => k.Running
  | .forkBegin q => k.Running ∧ k.procs.forking k.current = none ∧
      (⟨k.procs, k.live⟩ : ProcSys P).Fresh q
  | .forkFail | .forkEnd => k.Running ∧ k.procs.forking k.current ≠ none
  | .exit _ => k.Running ∧ k.procs.forking k.current = none ∧ k.Quiet k.current
  | .wait _ => k.Running ∧ k.procs.forking k.current = none ∧ k.current ≠ k.procs.idleproc
  | .sleep t n => k.Running ∧ k.current ≠ k.procs.idleproc ∧ n < 2 ^ 32 ∧ k.Free t
  | .semInit s _ => k.Running ∧ k.waiters s = []
  | .down _ => k.MayBlock wtKsem
  | .block ws => k.MayBlock ws
  | .addTimer t p n => k.Running ∧ 0 < n ∧ n < 2 ^ 32 ∧ k.Free t ∧ k.Ready p
  | .delTimer t => k.Running ∧ k.inited t = true

/-! ## The start -/

/-- `sched_init`, and `proc_init` up to the first `kernel_thread`. -/
def bootIdle (k : Sched S P T) (pcb : P → Pcb P) (idleproc : P) : Sched S P T :=
  let k := k.schedInit
  { k with
    procs := Procs.procInitIdle k.procs.links pcb idleproc
    links := listInit k.links (.runLink idleproc)
    live := {idleproc}
    task := Function.update k.task idleproc ⟨false, 0, true, 0, false⟩
    waiters := fun _ => []
    current := idleproc
    pc := fun _ => .run
    inited := fun _ => false
    enqueued := []
    dequeued := []
    events := [] }

/-- `sched_init` and `proc_init`, from memory that holds `k`. -/
def boot (k : Sched S P T) (pcb : P → Pcb P) (idleproc proc : P) : Except Stop (Sched S P T) := do
  let k ← ((k.bootIdle pcb idleproc).doForkBegin proc).doForkEnd
  match ← orPanic (k.procs.findProc (k.procs.pcb proc).pid) with
  | some p =>
    if (k.procs.pcb idleproc).pid = 0 ∧ (k.procs.pcb p).pid = 1 then
      .ok { k with procs := { k.procs with initproc := some p } }
    else .error .panic
  | none => .error .panic

/-- The kernel after `proc_init`, and what can happen to it. -/
def machine (S P T : Type) [DecidableEq S] [DecidableEq P] [DecidableEq T] [Fintype T] :
    Machine (Sched S P T) (SchedOp S P T) where
  Init k := ∃ mem pcb idleproc proc, idleproc ≠ proc ∧ boot mem pcb idleproc proc = .ok k
  Legal := Legal
  step k op := (k.step op).toOption

/-! ## The process table -/

/-- Only states have changed, and none to or from a zombie. -/
theorem table_congr {procs' : Procs P} (h : (⟨k.procs, k.live⟩ : ProcSys P).Inv)
    (ht : Procs.SameTable k.procs procs')
    (hp : ∀ p, ∃ g, procs'.pcb p = { k.procs.pcb p with run := g } ∧
      (g.state = .zombie → (k.run p).state = .zombie) ∧ (p ∉ k.live → g = k.run p)) :
    (⟨procs', k.live⟩ : ProcSys P).Inv := by
  obtain ⟨t, ⟨i, hi, hil, hip, hiz⟩, f⟩ := h
  obtain ⟨h1, h2, h3, h4, h5, h6, h7⟩ := ht
  have hz : ∀ p, (procs'.pcb p).run.state = .zombie → (k.run p).state = .zombie := fun p hz => by
    obtain ⟨g, hg, hgz, -⟩ := hp p
    rw [hg] at hz
    exact hgz hz
  refine ⟨t.congr ⟨h1, h2, h3, h4, h5⟩ (fun p _ => ?_) fun p _ => hz p,
    ⟨i, h6.trans hi, ?_, ?_, fun h => hiz (hz i h)⟩,
    f.congr h7 h2.le (fun _ _ h => h) subset_rfl (fun p hpl => ?_) fun p _ => hz p⟩
  · obtain ⟨g, hg, -⟩ := hp p
    rw [hg]
    exact ⟨rfl, rfl, rfl, rfl, rfl⟩
  · change i ∈ k.live.erase procs'.idleproc
    rw [h5]
    exact hil
  · obtain ⟨g, hg, -⟩ := hp i
    change (procs'.pcb i).parent = some procs'.idleproc
    rw [hg, h5]
    exact hip
  · obtain ⟨g, hg, -, hgl⟩ := hp p
    rw [hg, hgl hpl]
    exact ⟨rfl, rfl, rfl⟩

theorem Wakes.table (h : (⟨k.procs, k.live⟩ : ProcSys P).Inv)
    (ht : Procs.SameTable k.procs k'.procs)
    (hp : SamePcb k k') (hw : Wakes k k') : (⟨k'.procs, k.live⟩ : ProcSys P).Inv := by
  refine table_congr h ht fun p => ⟨k'.run p, hp p, fun hz => ?_, fun hpl => ?_⟩
  · rcases hw p with e | ⟨-, e⟩
    · rwa [e] at hz
    · rw [e, woken_state] at hz
      cases hz
  · rcases hw p with e | ⟨hm, -⟩
    · exact e
    · exact absurd hm hpl

theorem table_setRun (h : (⟨k.procs, k.live⟩ : ProcSys P).Inv) (hp : p ∈ k.live) {g : Proc}
    (hg : g.state ≠ .zombie) : (⟨k.procs.setRun p g, k.live⟩ : ProcSys P).Inv := by
  refine table_congr h ⟨rfl, rfl, rfl, rfl, rfl, rfl, rfl⟩ fun r => ?_
  rw [Procs.pcb_setRun]
  refine ⟨_, rfl, fun hz => ?_, fun hr => ?_⟩
  · by_cases e : r = p
    · rw [if_pos e] at hz
      exact absurd hz hg
    · rwa [if_neg e] at hz
  · have hne : r ≠ p := fun e => hr (e ▸ hp)
    rw [if_neg hne]
    rfl

/-! ## The rest of the invariant -/

/-- Where a process is says what state it is in, and what it waits for. -/
structure Here (k : Sched S P T) (p : P) : Prop where
  idle : p = k.procs.idleproc → (k.run p).state = .runnable ∧
    (k.pc p = .run ∨ k.pc p = .inside .plain)
  wait : ∀ pid, k.At p (.wait pid) → k.procs.forking p = none
  exited : (k.run p).state = .zombie → k.At p .exit
  waiters : ∀ s, p ∈ k.waiters s → k.At p (.down s)
  sleepers : ∀ t, k.At p (.sleep t) → k.inited t = true ∧ (k.timer t).proc = p

/-- What holds besides the process table, the run queue and the timers. -/
structure Rest (k : Sched S P T) : Prop where
  current : k.current ∈ k.live
  running : (∀ c, k.pc k.current ≠ .call c) → (k.run k.current).state = .runnable
  here : ∀ p ∈ k.live, Here k p
  waiters : ∀ s, (k.waiters s).Nodup ∧ ∀ p ∈ k.waiters s, p ∈ k.live
  children : ∀ p q, k.procs.forking p = some q → (k.run q).state = .uninit ∧ k.pc q = .run

/-- Nothing but states, places, timers and wait queues has changed. -/
structure Frame (k k' : Sched S P T) : Prop where
  live : k'.live = k.live
  idle : k'.procs.idleproc = k.procs.idleproc
  forking : k'.procs.forking = k.procs.forking
  inited : ∀ t, k.inited t = true → k'.inited t = true
  proc : ∀ t, k.Slept t → (k'.timer t).proc = (k.timer t).proc
  waiters : ∀ s, (k.waiters s).Nodup → (∀ p ∈ k.waiters s, p ∈ k.live) →
    (k'.waiters s).Nodup ∧ ∀ p ∈ k'.waiters s, p ∈ k.live

/-- A process that is not run may be woken. -/
structure Other (k k' : Sched S P T) (p : P) : Prop where
  pc : k'.pc p = k.pc p
  run : k'.run p = k.run p ∨ p ∈ k.live ∧ k'.run p = woken (k.run p)
  waiters : ∀ s, p ∈ k'.waiters s → p ∈ k.waiters s

theorem Other.at_iff (h : Other k k' p) {c : Cont S T} : k'.At p c ↔ k.At p c := by
  rw [At, At, h.pc]

theorem Here.other (h : Here k p) (hp : p ∈ k.live) (hf : Frame k k') (ho : Other k k' p) :
    Here k' p where
  idle e := by
    obtain ⟨h1, h2⟩ := h.idle (e.trans hf.idle)
    refine ⟨?_, by rwa [ho.pc]⟩
    rcases ho.run with e | ⟨-, e⟩
    · rwa [e]
    · rw [e, woken_state]
  wait pid ha := by
    rw [hf.forking]
    exact h.wait pid (ho.at_iff.1 ha)
  exited hz := by
    rw [ho.at_iff]
    rcases ho.run with e | ⟨-, e⟩
    · exact h.exited (e ▸ hz)
    · rw [e, woken_state] at hz
      cases hz
  waiters s hs := ho.at_iff.2 (h.waiters s (ho.waiters s hs))
  sleepers t ha := by
    have ha := ho.at_iff.1 ha
    obtain ⟨h1, h2⟩ := h.sleepers t ha
    exact ⟨hf.inited t h1, (hf.proc t ⟨p, hp, ha⟩).trans h2⟩

/-- **A step of the current process.** -/
theorem Rest.move (h : Rest k) (hc : ∀ p q, k.procs.forking p = some q → q ∉ k.live)
    (hf : Frame k k') (ho : ∀ p, p ≠ k.current → Other k k' p) (hh : Here k' k.current)
    (hcur : k'.current ∈ k.live)
    (hrun : (∀ c, k'.pc k'.current ≠ .call c) → (k'.run k'.current).state = .runnable) :
    Rest k' where
  current := hf.live ▸ hcur
  running := hrun
  here p hp := by
    rw [hf.live] at hp
    by_cases e : p = k.current
    · exact e ▸ hh
    · exact (h.here p hp).other hp hf (ho p e)
  waiters s := by
    obtain ⟨h1, h2⟩ := h.waiters s
    rw [hf.live]
    exact hf.waiters s h1 h2
  children p q hq := by
    rw [hf.forking] at hq
    have hql := hc p q hq
    have hqc : q ≠ k.current := fun e => hql (e ▸ h.current)
    rcases (ho q hqc).run with e | ⟨hl, -⟩
    · rw [e, (ho q hqc).pc]
      exact h.children p q hq
    · exact absurd hl hql

theorem Ready.other (h : k.Ready p) (hf : Frame k k') (ho : Other k k' p) : k'.Ready p := by
  obtain ⟨h1, h2, h3⟩ := h
  refine ⟨hf.live ▸ h1, ?_⟩
  rcases ho.run with e | ⟨-, e⟩
  · rw [e]
    exact ⟨h2, h3⟩
  · rw [e, woken]
    split
    · exact ⟨h2, h3⟩
    · exact ⟨by simp, .inl rfl⟩

/-- The run queue, the timers and the rest. -/
structure Core (k : Sched S P T) : Prop where
  queue : ∃ q, Queued k k.current q
  timers : ∃ ts, Timed k ts ∧ ∀ t ∈ ts, k.Ready (k.timer t).proc
  rest : Rest k

/-- What holds in every state reached. -/
structure Inv (k : Sched S P T) : Prop where
  table : (⟨k.procs, k.live⟩ : ProcSys P).Inv
  core : Core k

theorem Inv.queue (h : Inv k) : ∃ q, Queued k k.current q := h.core.queue

theorem Inv.timers (h : Inv k) : ∃ ts, Timed k ts ∧ ∀ t ∈ ts, k.Ready (k.timer t).proc :=
  h.core.timers

theorem Inv.rest (h : Inv k) : Rest k := h.core.rest

theorem Inv.tableStep (h : Inv k) (op : ProcOp P) (hl : (⟨k.procs, k.live⟩ : ProcSys P).Legal op) :
    ∃ w, (⟨k.procs, k.live⟩ : ProcSys P).step op = some w ∧ w.Inv :=
  h.table.step hl

theorem Inv.child (h : Inv k) : ∀ p q, k.procs.forking p = some q → q ∉ k.live :=
  fun p q hq => (h.table.forks.child p q hq).1

theorem Timed.linked {ts : List T} (h : Timed k ts) : k.Linked t ↔ t ∈ ts := by
  constructor
  · rintro ⟨hi, hl⟩
    by_contra ht
    rw [h.unlinked t hi ht] at hl
    cases hl
  · intro ht
    exact ⟨h.inited t ht, listEmpty_of_mem h.ring (List.mem_map_of_mem ht)⟩

/-! ## Wakeups -/

theorem Woke.frame (h : Woke k k') : Frame k k' where
  live := h.same.live
  idle := h.same.table.2.2.2.2.1
  forking := h.same.table.2.2.2.2.2.2
  inited t ht := by rwa [h.same.inited]
  proc t _ := by rw [h.same.timer]
  waiters s h1 h2 := by
    rw [h.same.waiters]
    exact ⟨h1, h2⟩

theorem Woke.other (h : Woke k k') (p : P) : Other k k' p :=
  ⟨by rw [h.same.pc], h.wakes p, fun s hs => by rwa [h.same.waiters] at hs⟩

/-- Wakeups, by whatever process. -/
theorem Inv.wakes (h : Inv k) (hf : Frame k k') (ho : ∀ p, Other k k' p) (hp : SamePcb k k')
    (ht : Procs.SameTable k.procs k'.procs) (hc : k'.current = k.current)
    (hq : ∃ q, Queued k' k'.current q)
    (htm : ∃ ts, Timed k' ts ∧ ∀ t ∈ ts, k'.Ready (k'.timer t).proc) : Inv k' := by
  refine ⟨?_, hq, htm, h.rest.move h.child hf (fun p _ => ho p)
    ((h.rest.here _ h.rest.current).other h.rest.current hf (ho _)) (hc ▸ h.rest.current)
    fun hpc => ?_⟩
  · rw [hf.live]
    exact Wakes.table h.table ht hp fun p => (ho p).run
  · rw [hc] at hpc ⊢
    rw [(ho _).pc] at hpc
    have hr := h.rest.running hpc
    rcases (ho k.current).run with e | ⟨-, e⟩
    · rwa [e]
    · rw [e, woken_state]

theorem Inv.woke (h : Inv k) (hw : Woke k k') (hp : SamePcb k k') : Inv k' := by
  refine h.wakes hw.frame hw.other hp hw.same.table hw.current hw.queued ?_
  obtain ⟨ts, hts, hrd⟩ := h.timers
  refine ⟨ts, hts.same hw.same, fun t ht => ?_⟩
  rw [hw.same.timer]
  exact (hrd t ht).other hw.frame (hw.other _)

theorem Inv.wakeupProc (h : Inv k) (hp : p ∈ k.live) : Safe (k.wakeupProc p) Inv := by
  obtain ⟨q, hq⟩ := h.queue
  refine (hq.wakeupProc hp).mono fun k' ⟨hk', hw⟩ => h.woke hw ?_
  obtain ⟨g, -, hg⟩ := Option.bind_eq_some_iff.1 hk'
  exact SamePcb.setRun (Option.some.inj hg).symm

theorem Inv.wakeupProcIf (h : Inv k) (hp : p ∈ k.live) (c : Prop) [Decidable c] :
    Safe (k.wakeupProcIf c p) Inv := by
  unfold Sched.wakeupProcIf
  split
  · exact h.wakeupProc hp
  · exact Safe.ok h

/-- What the invariant does not speak of. -/
theorem Inv.congr (h : Inv k) (task : P → Task) (value : S → ℤ) (flags : P → BitVec 32)
    (ht : ∀ p, (task p).queued = (k.task p).queued) :
    Inv { k with task := task, value := value, wakeupFlags := flags } := by
  obtain ⟨q, hq⟩ := h.queue
  refine h.woke ⟨rfl, ⟨Procs.SameTable.refl _, rfl, rfl, rfl, rfl, rfl, rfl, fun _ _ _ => rfl,
    fun _ _ _ => rfl⟩, fun _ => .inl rfl, q, ?_⟩ fun _ => rfl
  exact hq.congr (fun _ _ => ⟨rfl, rfl⟩) (fun _ => Iff.rfl) (fun p _ => ht p) (fun _ h => h) rfl rfl
    rfl le_rfl

theorem Inv.setTask (h : Inv k) (f : Task → Task) (hf : ∀ g, (f g).queued = g.queued) :
    Inv (k.setTask p f) := by
  refine h.congr _ k.value k.wakeupFlags fun r => ?_
  by_cases e : r = p
  · rw [e, Function.update_self, hf]
  · rw [Function.update_of_ne e]

@[simp] theorem waiters_setWaiters (ps : List P) (s' : S) :
    (k.setWaiters s ps).waiters s' = if s' = s then ps else k.waiters s' := by
  simp [Sched.setWaiters, Function.update_apply]

/-- Processes leave a wait queue. -/
theorem Inv.setWaiters (h : Inv k) (ps : List P) (hnd : ps.Nodup)
    (hps : ∀ p ∈ ps, p ∈ k.live ∧ k.At p (.down s)) : Inv (k.setWaiters s ps) := by
  obtain ⟨q, hq⟩ := h.queue
  obtain ⟨ts, hts, hrd⟩ := h.timers
  refine ⟨h.table, ⟨q, hq.congr (fun _ _ => ⟨rfl, rfl⟩) (fun _ => Iff.rfl) (fun _ _ => rfl)
    (fun _ h => h) rfl rfl rfl le_rfl⟩, ⟨ts, ⟨hts.ring, hts.times, hts.first, hts.bound, hts.inited,
      hts.unlinked, hts.onTime⟩, hrd⟩,
        ⟨h.rest.current, h.rest.running, fun p hp => ?_, fun s' => ?_,
      h.rest.children⟩⟩
  · obtain ⟨h1, h2, h3, h4, h5⟩ := h.rest.here p hp
    refine ⟨h1, h2, h3, fun s' hs' => ?_, h5⟩
    by_cases e : s' = s
    · subst e
      rw [waiters_setWaiters, if_pos rfl] at hs'
      exact (hps p hs').2
    · rw [waiters_setWaiters, if_neg e] at hs'
      exact h4 s' hs'
  · by_cases e : s' = s
    · subst e
      rw [waiters_setWaiters, if_pos rfl]
      exact ⟨hnd, fun p hp => (hps p hp).1⟩
    · rw [waiters_setWaiters, if_neg e]
      exact h.rest.waiters s'

theorem Inv.up (h : Inv k) (s : S) : Safe (k.up s) Inv := by
  unfold Sched.up
  cases hw : k.waiters s with
  | nil => exact Safe.ok (h.congr k.task _ k.wakeupFlags fun _ => rfl)
  | cons p ps =>
    dsimp only
    split
    · obtain ⟨hnd, hl⟩ := h.rest.waiters s
      rw [hw] at hnd hl
      have h₁ : Inv (k.setWaiters s ps) := h.setWaiters ps (List.nodup_cons.1 hnd).2 fun r hr => by
        have hrl := hl r (List.mem_cons_of_mem _ hr)
        refine ⟨hrl, (h.rest.here r hrl).waiters s ?_⟩
        rw [hw]
        exact List.mem_cons_of_mem _ hr
      have h₂ := h₁.congr k.task k.value (Function.update k.wakeupFlags p wtKsem) fun _ => rfl
      exact h₂.wakeupProc (hl p List.mem_cons_self)
    · exact Safe.panic

theorem Inv.findProc (h : Inv k) (pid : ℤ) : Safe (orPanic (k.procs.findProc pid)) fun o =>
    ∀ p, o = some p → p ∈ k.live := by
  obtain ⟨o, ho, hop⟩ := h.table.tree.findProc_spec
    (ProcSys.card_le_fuel h.table.tree h.table.forks) pid
  refine Safe.orPanic fun o' ho' p hp => ?_
  rw [ho, Option.some.injEq] at ho'
  subst ho'
  exact (Finset.mem_erase.1 ((hop p).1 hp).1).2

theorem Inv.kill (h : Inv k) (pid : ℤ) : Safe (k.doKill pid) Inv := by
  unfold Sched.doKill
  refine (h.findProc pid).bind fun o ho => ?_
  cases o with
  | none => exact Safe.ok h
  | some p =>
    dsimp only
    unfold Sched.killProc
    split
    · exact (h.setTask (p := p) (fun g => { g with exiting := true }) fun _ => rfl).wakeupProcIf
        (ho p rfl) _
    · exact Safe.ok h

/-! ## The timer interrupt -/

theorem Ticks.frame (h : Ticks k k') : Frame k k' where
  live := h.live
  idle := h.table.2.2.2.2.1
  forking := h.table.2.2.2.2.2.2
  inited t ht := by rwa [h.inited]
  proc t _ := h.proc t
  waiters s h1 h2 := by
    rw [h.waiters]
    exact ⟨h1, h2⟩

theorem Ticks.other (h : Ticks k k') (p : P) : Other k k' p :=
  ⟨by rw [h.pc], h.wakes p, fun s hs => by rwa [h.waiters] at hs⟩

theorem Inv.tick (h : Inv k) : ∃ k' fired, k.runTimerList = .ok k' ∧ Inv k' ∧
    k'.events = .tick fired :: k.events ∧
    ∀ t ∈ fired, (k'.run (k.timer t).proc).state = .runnable := by
  obtain ⟨q, hq⟩ := h.queue
  obtain ⟨ts, hts, hrd⟩ := h.timers
  obtain ⟨k', fired, ts', hk', ht, hev, hsub, hfired, hts'⟩ := hts.tick hrd hq
  refine ⟨k', fired, hk', h.wakes ht.frame ht.other ht.pcb ht.table ht.current ht.queued
    ⟨ts', hts', fun t hm => ?_⟩, hev, fun t hm => (hfired t hm).2⟩
  rw [ht.proc]
  exact (hrd t (hsub hm)).other ht.frame (ht.other _)

/-! ## Timers -/

/-- The place of a timer that is not in the list is written. -/
theorem Inv.timerInit (h : Inv k) (hfree : k.Free t) (n : ℕ) : Inv (k.timerInit t p n) := by
  obtain ⟨q, hq⟩ := h.queue
  obtain ⟨ts, hts, hrd⟩ := h.timers
  have ht : t ∉ ts := fun hm => hfree.1 (hts.linked.2 hm)
  have htimer : ∀ u, u ≠ t → (k.timerInit t p n).timer u = k.timer u := fun u hu => by
    simp [Sched.timerInit, hu]
  have hq' : Queued (k.timerInit t p n) k.current q := by
    refine hq.congr (fun x hx => ?_) (fun _ => Iff.rfl) (fun _ _ => rfl) (fun _ h => h) rfl rfl rfl
      le_rfl
    have hne : x ≠ .timerLink t := by
      rcases hx with rfl | ⟨p, rfl⟩ <;> simp
    simp [Sched.timerInit, listInit, hne]
  refine h.wakes ⟨rfl, rfl, rfl, fun u hu => ?_, fun u hu => ?_, fun _ h1 h2 => ⟨h1, h2⟩⟩
    (fun p => ⟨rfl, .inl rfl, fun _ h => h⟩) (fun _ => rfl) (Procs.SameTable.refl _) rfl ⟨q, hq'⟩
    ⟨ts, hts.timerInit ht n, fun u hu => ?_⟩
  · simp only [Sched.timerInit, Function.update_apply, hu, ite_self]
  · rw [htimer u fun e => hfree.2 (e ▸ hu)]
  · rw [htimer u fun e => ht (e ▸ hu)]
    exact hrd u hu

/-- Timers have been linked in or taken out. -/
theorem Inv.timed (h : Inv k) (hs : SameButTimers k k') {e : Event T} {ts : List T}
    (hts : Timed (k'.record e) ts) (hrd : ∀ t ∈ ts, k.Ready (k.timer t).proc) :
    Inv (k'.record e) := by
  obtain ⟨q, hq⟩ := h.queue
  have hprocs : k'.procs = k.procs := by rw [hs.eq]
  have hlive : k'.live = k.live := by rw [hs.eq]
  have hpc : k'.pc = k.pc := by rw [hs.eq]
  have hwait : k'.waiters = k.waiters := by rw [hs.eq]
  have hin : k'.inited = k.inited := by rw [hs.eq]
  have hc : k'.current = k.current := by rw [hs.eq]
  have hrun : ∀ p, (k'.record e).run p = k.run p :=
    fun p => congrArg (fun x => (x.pcb p).run) hprocs
  have hf : Frame k (k'.record e) := ⟨hlive, congrArg Procs.idleproc hprocs,
    congrArg Procs.forking hprocs, fun t ht => (congrFun hin t).trans ht, fun t _ => hs.proc t,
    fun s h1 h2 => by
      change (k'.waiters s).Nodup ∧ ∀ p ∈ k'.waiters s, p ∈ k.live
      rw [hwait]
      exact ⟨h1, h2⟩⟩
  have ho : ∀ p, Other k (k'.record e) p := fun p =>
    ⟨congrFun hpc p, .inl (hrun p), fun s hm => by
      change p ∈ k'.waiters s at hm
      rwa [hwait] at hm⟩
  refine h.wakes hf ho (fun p => ?_) ?_ hc ⟨q, ?_⟩ ⟨ts, hts, fun t ht => ?_⟩
  · rw [hrun]
    exact congrArg (fun x => x.pcb p) hprocs
  · change Procs.SameTable k.procs k'.procs
    rw [hprocs]
    exact Procs.SameTable.refl _
  · change Queued (k'.record e) k'.current q
    rw [hc]
    exact (hq.timers hs).congr (fun _ _ => ⟨rfl, rfl⟩) (fun _ => Iff.rfl) (fun _ _ => rfl)
      (fun _ h => h) rfl rfl rfl le_rfl
  · have := hrd t ht
    rw [← hs.proc] at this
    exact this.other hf (ho _)

theorem Inv.addTimer (h : Inv k) (hi : k.inited t = true) (hl : ¬k.Linked t)
    (h0 : k.expires t ≠ 0) (hlt : k.expires t < 2 ^ 32) (hrd : k.Ready (k.timer t).proc) :
    ∃ k', k.addTimer t = .ok k' ∧ SameButTimers k k' ∧
      Inv (k'.record (.add t (k.expires t))) := by
  obtain ⟨ts, hts, hrds⟩ := h.timers
  obtain ⟨k', ts', hk', hs, hmem, hts'⟩ := hts.add hi (fun hm => hl (hts.linked.2 hm)) h0 hlt
  refine ⟨k', hk', hs, h.timed hs hts' fun u hu => ?_⟩
  rcases (hmem u).1 hu with rfl | hu
  · exact hrd
  · exact hrds u hu

theorem Inv.delTimer (h : Inv k) (hi : k.inited t = true) :
    Inv ((k.delTimer t).record (.del t)) ∧ SameButTimers k (k.delTimer t) ∧
      listEmpty (k.delTimer t).links (.timerLink t) = true := by
  obtain ⟨ts, hts, hrd⟩ := h.timers
  by_cases ht : t ∈ ts
  · obtain ⟨xs, ys, rfl⟩ := List.append_of_mem ht
    obtain ⟨k', hk', hs, hts'⟩ := hts.del
    subst hk'
    have hnd := Ring.nodup hts.ring
    have hin : (k.delTimer t).inited = k.inited := by rw [hs.eq]
    refine ⟨h.timed hs hts' fun u hu => hrd u ?_, hs, ?_⟩
    · rw [List.mem_append, List.mem_cons]
      exact (List.mem_append.1 hu).imp_right .inr
    · refine hts'.unlinked t ((congrFun hin t).trans hi) fun hm => ?_
      have := List.nodup_middle.1 hnd
      exact (List.nodup_cons.1 this).1 hm
  · obtain ⟨hk, hts'⟩ := hts.del_unlinked hi ht
    rw [hk]
    have hs : SameButTimers k k := ⟨rfl, fun _ => rfl, fun _ _ _ => rfl, fun _ _ _ => rfl⟩
    exact ⟨h.timed hs hts' hrd, hs, hts.unlinked t hi ht⟩

@[simp] theorem timerInit_timer (n : ℕ) : (k.timerInit t p n).timer t = ⟨n, p⟩ := by
  simp [Sched.timerInit]

theorem timerInit_linked (n : ℕ) : ¬(k.timerInit t p n).Linked t := fun h => by
  have h2 := h.2
  simp [Sched.timerInit, listEmpty, listInit] at h2

theorem Inv.startTimer (h : Inv k) (n : ℕ) (h0 : 0 < n) (hlt : n < 2 ^ 32) (hfree : k.Free t)
    (hrd : k.Ready p) :
    ∃ k', k.startTimer t p n = .ok k' ∧ Inv k' ∧ k'.events = .add t n :: k.events := by
  have he : (k.timerInit t p n).expires t = n := by rw [expires, timerInit_timer]
  obtain ⟨k', hk', hs, hi⟩ := (h.timerInit (p := p) hfree n).addTimer (t := t)
    (by simp [Sched.timerInit]) (timerInit_linked n) (by omega) (by omega)
    (by rw [timerInit_timer]; exact hrd)
  rw [he] at hi
  have hev : k'.events = k.events := by
    rw [hs.eq]
    rfl
  refine ⟨_, ?_, hi, congrArg (Event.add t n :: ·) hev⟩
  unfold Sched.startTimer
  rw [hk']
  rfl

/-! ## Going to sleep -/

theorem Inv.notQuiet (h : Inv k) (hq : k.Quiet k.current) (hs : ∀ t, ¬k.At k.current (.sleep t))
    {ts : List T} (hts : Timed k ts) : ∀ t ∈ ts, (k.timer t).proc ≠ k.current := fun t ht e => by
  obtain ⟨p, hp, ha⟩ := hq t (hts.linked.2 ht) e
  have hpt := ((h.rest.here p hp).sleepers t ha).2
  rw [e] at hpt
  exact hs t (hpt ▸ ha)

theorem Running.not_at (h : k.Running) {c : Cont S T} : ¬k.At k.current c := by
  rintro (e | e) <;> rw [Running, e] at h <;> cases h

/-- The current process is about to call `schedule()`, asleep. -/
theorem Inv.sleeps (h : Inv k) (ws : BitVec 32) (hi : k.current ≠ k.procs.idleproc)
    (hpc : ∀ t, ¬k.At k.current (.sleep t))
    (hws : ws = 0 ∨ ws &&& wtInterrupted ≠ 0 ∨ k.Quiet k.current) {c : Cont S T}
    (hwait : ∀ pid, c = .wait pid → k.procs.forking k.current = none)
    (hdown : ∀ s, k.current ∉ k.waiters s)
    (hsleep : ∀ t, c = .sleep t → k.inited t = true ∧ (k.timer t).proc = k.current) :
    Inv ((k.setRun k.current ⟨.sleeping, ws⟩).setPc k.current (.call c)) := by
  obtain ⟨k', hk'⟩ : ∃ k', k' = (k.setRun k.current ⟨.sleeping, ws⟩).setPc k.current (.call c) :=
    ⟨_, rfl⟩
  have hrun : ∀ p, k'.run p = if p = k.current then ⟨.sleeping, ws⟩ else k.run p := fun p => by
    rw [hk']
    exact run_setRun _ p
  have hpc' : ∀ p, k'.pc p = if p = k.current then .call c else k.pc p := fun p => by
    rw [hk']
    exact pc_setPc _ p
  have hat : ∀ c', k'.At k.current c' → c = c' := fun c' ha => by
    rw [At, hpc', if_pos rfl] at ha
    simpa using ha
  obtain ⟨q, hq⟩ := h.queue
  obtain ⟨ts, hts, hrd⟩ := h.timers
  have hf : Frame k k' := by
    rw [hk']
    exact ⟨rfl, rfl, rfl, fun _ h => h, fun _ _ => rfl, fun _ h1 h2 => ⟨h1, h2⟩⟩
  have ho : ∀ p, p ≠ k.current → Other k k' p := fun p hp =>
    ⟨by rw [hpc', if_neg hp], .inl (by rw [hrun, if_neg hp]),
      fun s hs => by rw [hk'] at hs; exact hs⟩
  have hcur : k'.current = k.current := by rw [hk']; rfl
  rw [← hk']
  refine ⟨?_, ⟨q, ?_⟩, ⟨ts, ?_, fun t ht => ?_⟩, h.rest.move h.child hf ho ⟨fun e => ?_,
    fun pid ha => ?_, fun hz => ?_, fun s hs => ?_, fun t ha => ?_⟩ (hcur ▸ h.rest.current)
    fun hc => ?_⟩
  · rw [hk']
    exact table_setRun h.table h.rest.current (by simp)
  · rw [hcur]
    refine hq.congr (fun x _ => ?_) (fun p => ?_) (fun p _ => ?_) (fun p hp => ?_) ?_ ?_ ?_ ?_
    · rw [hk']
      exact ⟨rfl, rfl⟩
    · rw [hrun, hf.live, hf.idle]
      by_cases e : p = k.current
      · simp [e]
      · rw [if_neg e]
    all_goals rw [hk'] at *
    · rfl
    · exact hp
    all_goals rfl
  · rw [hk']
    exact ⟨hts.ring, hts.times, hts.first, hts.bound, hts.inited, hts.unlinked, hts.onTime⟩
  · have htm : (k'.timer t).proc = (k.timer t).proc := by rw [hk']; rfl
    rw [htm]
    by_cases e : (k.timer t).proc = k.current
    · rw [e, Ready, hrun, if_pos rfl, hf.live]
      refine ⟨h.rest.current, by simp, ?_⟩
      rcases hws with e' | e' | hqt
      · exact .inl e'
      · exact .inr e'
      · exact absurd e (h.notQuiet hqt hpc hts t ht)
    · exact (hrd t ht).other hf (ho _ e)
  · rw [hf.idle] at e
    exact absurd e hi
  · rw [hf.forking]
    exact hwait pid (hat _ ha)
  · rw [hrun, if_pos rfl] at hz
    cases hz
  · rw [hk'] at hs
    exact absurd hs (hdown s)
  · rw [hk']
    exact hsleep t (hat _ ha)
  · rw [hcur, hpc', if_pos rfl] at hc
    exact absurd rfl (hc c)

theorem Inv.notWaiting (h : Inv k) (hr : k.Running) (s : S) : k.current ∉ k.waiters s := fun hs =>
  hr.not_at ((h.rest.here _ h.rest.current).waiters s hs)

theorem Inv.block (h : Inv k) {ws : BitVec 32} (hl : k.MayBlock ws) : Inv (k.block ws) :=
  h.sleeps ws hl.2.1 (fun _ => hl.1.not_at) hl.2.2 (fun _ e => by cases e) (h.notWaiting hl.1)
    fun _ e => by cases e

theorem Inv.down (h : Inv k) (hl : k.MayBlock wtKsem) (s : S) : Inv (k.down s) := by
  unfold Sched.down
  split
  · exact h.congr k.task _ k.wakeupFlags fun _ => rfl
  · have h₁ :=
      h.sleeps wtKsem (c := .down s) hl.2.1 (fun _ => hl.1.not_at) hl.2.2 (fun _ e => by cases e)
      (h.notWaiting hl.1) fun _ e => by cases e
    have h₂ := h₁.congr k.task k.value
      (Function.update k.wakeupFlags k.current wtInterrupted) fun _ => rfl
    obtain ⟨hnd, hlv⟩ := h.rest.waiters s
    refine h₂.setWaiters (s := s) (k.waiters s ++ [k.current]) ?_ fun p hp => ?_
    · exact List.nodup_append.2 ⟨hnd, List.nodup_singleton _, fun a ha b hb e => by
        rw [List.mem_singleton] at hb
        exact h.notWaiting hl.1 s (hb ▸ e ▸ ha)⟩
    · by_cases e : p = k.current
      · rw [e]
        exact ⟨h.rest.current, .inl (by simp)⟩
      · have hp' := (List.mem_append.1 hp).resolve_right fun hs => e (List.mem_singleton.1 hs)
        refine ⟨hlv p hp', ?_⟩
        change (Function.update k.pc k.current (.call (.down s))) p = _ ∨
          (Function.update k.pc k.current (.call (.down s))) p = _
        rw [Function.update_of_ne e]
        exact (h.rest.here p (hlv p hp')).waiters s hp'

theorem addTimerWalk_setPc (pc : Place S T) : ∀ {n : ℕ} {k : Sched S P T} (le : SchedNode P T),
    addTimerWalk t n (k.setPc p pc) le =
      (addTimerWalk t n k le).map fun r => (r.1.setPc p pc, r.2)
  | 0, _, _ => rfl
  | n + 1, k, .timerLink next => by
    by_cases h : (k.timer t).expires < (k.timer next).expires
    · have hk : addTimerWalk t (n + 1) k (.timerLink next) =
          some (k.setExpires next ((k.timer next).expires - (k.timer t).expires),
            .timerLink next) := if_pos h
      rw [hk]
      exact if_pos h
    · have hk : addTimerWalk t (n + 1) k (.timerLink next) =
          addTimerWalk t n (k.setExpires t ((k.timer t).expires - (k.timer next).expires))
            (listNext k.links (.timerLink next)) := if_neg h
      rw [hk]
      exact (if_neg h).trans (addTimerWalk_setPc pc _ (k := k.setExpires t _))
  | _ + 1, _, .runList | _ + 1, _, .runLink _ | _ + 1, _, .timerList => rfl

theorem addTimer_setPc {pc : Place S T} :
    (k.setPc p pc).addTimer t = (k.addTimer t).map fun k' => k'.setPc p pc := by
  have hw : addTimerWalk t (fuel T) (k.setPc p pc) (listNext (k.setPc p pc).links .timerList) = _ :=
    addTimerWalk_setPc pc (listNext k.links .timerList)
  unfold Sched.addTimer
  by_cases h : 0 < (k.timer t).expires ∧ listEmpty k.links (.timerLink t) = true
  · rw [if_pos h]
    refine (if_pos h).trans ?_
    rw [hw]
    cases addTimerWalk t (fuel T) k (listNext k.links .timerList) with
    | none => rfl
    | some r => rfl
  · rw [if_neg h]
    exact if_neg h

theorem Inv.sleep (h : Inv k) (hr : k.Running) (hi : k.current ≠ k.procs.idleproc) {n : ℕ}
    (hlt : n < 2 ^ 32) (hfree : k.Free t) : ∃ k', k.doSleep t n = .ok k' ∧ Inv k' := by
  unfold Sched.doSleep
  split
  · exact ⟨k, rfl, h⟩
  · rename_i hn
    have h₁ := h.timerInit (p := k.current) hfree n
    have h₂ := h₁.sleeps wtTimer (c := .sleep t) hi (fun _ => hr.not_at)
      (.inr (.inl (by decide))) (fun _ e => by cases e) (h.notWaiting hr) fun u e => by
        cases e
        exact ⟨by simp [Sched.timerInit], by rw [timerInit_timer]; rfl⟩
    obtain ⟨k', hk'⟩ :
        ∃ k', k' = (k.timerInit t k.current n).setRun k.current ⟨.sleeping, wtTimer⟩ :=
      ⟨_, rfl⟩
    have hcur : (k.timerInit t k.current n).current = k.current := rfl
    rw [hcur, ← hk'] at h₂
    have htm : (k'.setPc k.current (.call (.sleep t))).timer t = ⟨n, k.current⟩ := by
      rw [hk']
      exact timerInit_timer n
    have he : (k'.setPc k.current (.call (.sleep t))).expires t = n := by rw [expires, htm]
    have hin : (k'.setPc k.current (.call (.sleep t))).inited t = true := by
      rw [hk']
      change (k.timerInit t k.current n).inited t = true
      simp [Sched.timerInit]
    have hnl : ¬(k'.setPc k.current (.call (.sleep t))).Linked t := by
      rw [hk']
      exact timerInit_linked (p := k.current) n
    have hrd : (k'.setPc k.current (.call (.sleep t))).Ready k.current := by
      have hrun : (k'.setPc k.current (.call (.sleep t))).run k.current = ⟨.sleeping, wtTimer⟩ := by
        rw [hk']
        exact (run_setRun _ _).trans (if_pos rfl)
      rw [Ready, hrun, hk']
      exact ⟨h.rest.current, by simp, .inr (by decide)⟩
    obtain ⟨k'', hk'', hs, h₃⟩ := h₂.addTimer hin hnl (by omega) (by omega) (by rw [htm]; exact hrd)
    rw [he] at h₃
    rw [addTimer_setPc] at hk''
    dsimp only
    rw [hcur, ← hk']
    cases hadd : k'.addTimer t with
    | error e =>
      rw [hadd] at hk''
      cases hk''
    | ok k₃ =>
      rw [hadd] at hk''
      cases hk''
      have hc : k₃.current = k.current := by
        have hc := congrArg Sched.current hs.eq
        rw [hk'] at hc
        exact hc
      refine ⟨_, rfl, ?_⟩
      rw [hc]
      exact h₃

/-! ## Scheduling -/

theorem Queued.setPc {c : P} {qs : List P} (h : Queued k c qs) (pc : Place S T) :
    Queued (k.setPc p pc) c qs :=
  h.congr (fun _ _ => ⟨rfl, rfl⟩) (fun _ => Iff.rfl) (fun _ _ => rfl) (fun _ h => h) rfl rfl rfl
    le_rfl

theorem Timed.setPc {ts : List T} (h : Timed k ts) (pc : Place S T) : Timed (k.setPc p pc) ts :=
  ⟨h.ring, h.times, h.first, h.bound, h.inited, h.unlinked, h.onTime⟩

/-- The current process calls `schedule()`, and goes on with `c` when it returns. -/
theorem Inv.scheduleAs (h : Inv k) {c : Cont S T}
    (hc : k.pc k.current = .run ∧ c = .plain ∨ k.pc k.current = .call c) :
    ∃ k', (k.setPc k.current (.inside c)).schedule = .ok k' ∧ Inv k' := by
  obtain ⟨q, hq⟩ := h.queue
  obtain ⟨ts, hts, hrd⟩ := h.timers
  obtain ⟨k₁, hk₁⟩ : ∃ k₁, k₁ = k.setPc k.current (.inside c) := ⟨_, rfl⟩
  have hq₁ : Queued k₁ k₁.current q := hk₁ ▸ hq.setPc _
  have hts₁ : Timed k₁ ts := hk₁ ▸ hts.setPc _
  have hl₁ : k₁.current ∈ k₁.live := hk₁ ▸ h.rest.current
  have hpc₁ : ∀ p, k₁.pc p = if p = k.current then .inside c else k.pc p := fun p => by
    rw [hk₁, pc_setPc]
  obtain ⟨k', q', hk', hp', hs, hq', hcur⟩ := hq₁.schedule hl₁
  have hprocs : k'.procs = k.procs := by rw [hp', hk₁]; rfl
  have hlive : k'.live = k.live := by rw [hs.live, hk₁]; rfl
  have hwait : k'.waiters = k.waiters := by rw [hs.waiters, hk₁]; rfl
  have htimer : k'.timer = k.timer := by rw [hs.timer, hk₁]; rfl
  have hin : k'.inited = k.inited := by rw [hs.inited, hk₁]; rfl
  have hrun : ∀ p, k'.run p = k.run p := fun p => by rw [run, hprocs, run]
  have hat : ∀ c', k'.At k.current c' → c = c' := fun c' ha => by
    rw [At, hs.pc, hpc₁, if_pos rfl] at ha
    simpa using ha
  have hto : ∀ c', k.At k.current c' → k'.At k.current c' := fun c' ha => by
    refine .inr ?_
    rw [hs.pc, hpc₁, if_pos rfl]
    rcases hc with ⟨e, -⟩ | e <;> rcases ha with e' | e' <;> rw [e] at e' <;> cases e'
    rfl
  have hfrom : ∀ c', k'.At k.current c' → c' ≠ .plain → k.At k.current c' := fun c' ha hne => by
    obtain rfl := hat c' ha
    rcases hc with ⟨-, e⟩ | e
    · exact absurd e hne
    · exact .inl e
  have hh := h.rest.here _ h.rest.current
  have hcl : k'.current ∈ k.live ∧ (k.run k'.current).state = .runnable := by
    rw [hk₁] at hcur
    rcases hcur with e | ⟨h1, h2⟩
    · have hi : k'.current = k.procs.idleproc := e
      rw [hi]
      exact ⟨h.table.tree.idle, (h.rest.here _ h.table.tree.idle).idle rfl |>.1⟩
    · exact ⟨h1, h2⟩
  have hf : Frame k k' := ⟨hlive, by rw [hprocs], by rw [hprocs], fun t ht => by rwa [hin],
    fun t _ => by rw [htimer], fun s h1 h2 => by rw [hwait]; exact ⟨h1, h2⟩⟩
  have ho : ∀ p, p ≠ k.current → Other k k' p := fun p hp =>
    ⟨by rw [hs.pc, hpc₁, if_neg hp], .inl (hrun p), fun s hm => by rwa [hwait] at hm⟩
  rw [← hk₁]
  refine ⟨k', hk', by rw [hprocs, hlive]; exact h.table, ⟨q', hq'⟩,
    ⟨ts, hts₁.same hs, fun t ht => ?_⟩,
    h.rest.move h.child hf ho ⟨fun e => ?_, fun pid ha => ?_, fun hz => ?_, fun s hm => ?_,
      fun t ha => ?_⟩ hcl.1 fun _ => by rw [hrun]; exact hcl.2⟩
  · rw [htimer, Ready, hlive, hrun]
    exact hrd t ht
  · obtain ⟨h1, h2⟩ := hh.idle (by rw [e, hprocs])
    rw [hrun, hs.pc, hpc₁, if_pos rfl]
    refine ⟨h1, .inr ?_⟩
    rcases hc with ⟨-, rfl⟩ | e'
    · rfl
    · rw [e'] at h2
      rcases h2 with h2 | h2 <;> cases h2
  · rw [hprocs]
    exact hh.wait pid (hfrom _ ha (by simp))
  · rw [hrun] at hz
    exact hto _ (hh.exited hz)
  · rw [hwait] at hm
    exact hto _ (hh.waiters s hm)
  · rw [hin, htimer]
    exact hh.sleepers t (hfrom _ ha (by simp))

theorem Inv.callSchedule (h : Inv k) (hl : k.Legal .schedule) :
    ∃ k', k.callSchedule = .ok k' ∧ Inv k' := by
  unfold Sched.callSchedule
  simp only [Legal] at hl
  cases hpc : k.pc k.current with
  | run => exact h.scheduleAs (.inl ⟨hpc, rfl⟩)
  | call c => exact h.scheduleAs (.inr hpc)
  | inside c => rw [hpc] at hl; exact hl.elim

/-- The current process goes on. -/
theorem Inv.runs (h : Inv k) (hpc : ∀ c, k.pc k.current ≠ .call c)
    (hw : ∀ s, k.current ∉ k.waiters s) : Inv (k.setPc k.current .run) := by
  obtain ⟨q, hq⟩ := h.queue
  obtain ⟨ts, hts, hrd⟩ := h.timers
  have hrun := h.rest.running hpc
  have hpc' : ∀ p, (k.setPc k.current .run).pc p = if p = k.current then .run else k.pc p :=
    fun p => pc_setPc _ p
  have hnat : ∀ c, ¬(k.setPc k.current .run).At k.current c := fun c ha => by
    rw [At, hpc', if_pos rfl] at ha
    rcases ha with e | e <;> cases e
  refine ⟨h.table, ⟨q, hq.setPc _⟩, ⟨ts, hts.setPc _, hrd⟩, h.rest.move h.child
    ⟨rfl, rfl, rfl, fun _ h => h, fun _ _ => rfl, fun _ h1 h2 => ⟨h1, h2⟩⟩
    (fun p hp => ⟨by rw [hpc', if_neg hp], .inl rfl, fun _ h => h⟩)
    ⟨fun e => ⟨hrun, .inl ?_⟩, fun pid ha => absurd ha (hnat _), fun hz => ?_,
      fun s hs => absurd hs (hw s), fun t ha => absurd ha (hnat _)⟩ h.rest.current fun _ => hrun⟩
  · rw [hpc', if_pos rfl]
  · change (k.run k.current).state = .zombie at hz
    rw [hrun] at hz
    cases hz

/-! ## Fork -/

/-- The table is full, or there is a new process structure. -/
theorem doForkBegin_cases (k : Sched S P T) (q : P) : k.doForkBegin q = k ∨
    ∃ k', k.doForkBegin q = k' ∧ k'.procs = (k.procs.doForkBegin k.current q).1 ∧
      k'.procs.idleproc = k.procs.idleproc ∧
      k'.procs.forking = Function.update k.procs.forking k.current (some q) ∧
      (k'.run q).state = .uninit ∧ (∀ p, p ≠ q → k'.run p = k.run p) ∧
      k' = { k with
        procs := k'.procs
        links := listInit k.links (.runLink q)
        task := Function.update k.task q ⟨false, 0, false, 0, false⟩
        pc := Function.update k.pc q .run } := by
  unfold Sched.doForkBegin Procs.doForkBegin
  split_ifs
  · exact .inl rfl
  · refine .inr ⟨_, rfl, rfl, rfl, rfl, ?_, fun p hp => ?_, rfl⟩
    · simp [Sched.run, Procs.allocProc, Procs.setParent, Procs.setPcb]
    · simp [Sched.run, Procs.allocProc, Procs.setParent, Procs.setPcb, hp]

end Sched

end Ucore
