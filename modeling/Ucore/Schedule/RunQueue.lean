/-
  The run queue agrees with the states of the processes.

  * `Queued k q`: the run queue is `q`, and these are the processes that could run;
  * `Queued.wakeup`, `Queued.schedule`: `wakeup_proc` and `schedule` fail no assertion of the run
    queue and keep it so; `Queued.reparent` and `Queued.exit` follow;
  * `Safe`: what holds of a result, and that the kernel does not stop in the run queue.
-/
import Ucore.Schedule.Sched

namespace Ucore

open Intrusive DeltaList

set_option linter.unusedSectionVars false

/-! ## Results -/

/-- The result, if there is one, is in `Q`; if there is none, no assertion of the run queue
    failed. -/
def Safe {α : Type} (x : Except Stop α) (Q : α → Prop) : Prop :=
  match x with
  | .ok a => Q a
  | .error e => e = .panic

namespace Safe

variable {α β : Type} {x : Except Stop α} {Q R : α → Prop}

theorem ok {a : α} (h : Q a) : Safe (.ok a) Q := h

theorem panic : Safe (.error .panic : Except Stop α) Q := rfl

theorem of_eq {a : α} (hx : x = .ok a) (h : Q a) : Safe x Q := by
  rw [hx]
  exact h

theorem mono (h : Safe x Q) (hq : ∀ a, Q a → R a) : Safe x R := by
  cases x with
  | ok a => exact hq a h
  | error e => exact h

theorem bind {f : α → Except Stop β} {Q' : β → Prop} (h : Safe x Q)
    (hf : ∀ a, Q a → Safe (f a) Q') : Safe (x >>= f) Q' := by
  cases x with
  | ok a => exact hf a h
  | error e => exact h

theorem orPanic {o : Option α} (h : ∀ a, o = some a → Q a) : Safe (orPanic o) Q := by
  cases o with
  | some a => exact h a rfl
  | none => rfl

end Safe

variable {S P T : Type} [DecidableEq S] [DecidableEq P] [DecidableEq T] [Fintype T]

namespace Sched

variable {k k' : Sched S P T} {c c' p : P} {q : List P}

/-! ## Fields -/

@[simp] theorem run_setRun (g : Proc) (p' : P) :
    (k.setRun p g).run p' = if p' = p then g else k.run p' := by
  simp [run, setRun]

@[simp] theorem task_setTask (f : Task → Task) (p' : P) :
    (k.setTask p f).task p' = if p' = p then f (k.task p) else k.task p' := by
  simp [setTask, Function.update_apply]

@[simp] theorem pc_setPc (pc : Place S T) (p' : P) :
    (k.setPc p pc).pc p' = if p' = p then pc else k.pc p' := by
  simp [setPc, Function.update_apply]

/-- All but the run queue, the `run` fields of processes, tasks and `current` is the same. -/
structure Same (k k' : Sched S P T) : Prop where
  table : Procs.SameTable k.procs k'.procs
  live : k'.live = k.live
  timer : k'.timer = k.timer
  waiters : k'.waiters = k.waiters
  pc : k'.pc = k.pc
  inited : k'.inited = k.inited
  events : k'.events = k.events
  next : ∀ x, (∀ p, x ≠ .runLink p) → x ≠ .runList → k'.links.next x = k.links.next x
  prev : ∀ x, (∀ p, x ≠ .runLink p) → x ≠ .runList → k'.links.prev x = k.links.prev x

theorem Same.refl (k : Sched S P T) : Same k k :=
  ⟨Procs.SameTable.refl _, rfl, rfl, rfl, rfl, rfl, rfl, fun _ _ _ => rfl, fun _ _ _ => rfl⟩

theorem Same.trans {k₁ k₂ k₃ : Sched S P T} (h : Same k₁ k₂) (h' : Same k₂ k₃) : Same k₁ k₃ :=
  ⟨h.table.trans h'.table, h'.live.trans h.live, h'.timer.trans h.timer,
    h'.waiters.trans h.waiters, h'.pc.trans h.pc, h'.inited.trans h.inited,
    h'.events.trans h.events, fun x hx hr => (h'.next x hx hr).trans (h.next x hx hr),
    fun x hx hr => (h'.prev x hx hr).trans (h.prev x hx hr)⟩

/-! ## The run queue -/

/-- The run queue is `q`: the processes that could run, but `c` and `idleproc`. -/
structure Queued (k : Sched S P T) (c : P) (q : List P) : Prop where
  ring : Circ k.links .runList (q.map .runLink)
  mem : ∀ p, p ∈ q ↔ p ∈ k.live ∧ (k.run p).state = .runnable ∧ p ≠ c ∧ p ≠ k.procs.idleproc
  queued : ∀ p ∈ q, (k.task p).queued = true
  unlinked : ∀ p, p ∈ k.live ∨ (∃ c, k.procs.forking c = some p) → p ∉ q →
    listEmpty k.links (.runLink p) = true
  num : k.procNum = q.length
  fifo : k.enqueued = k.dequeued ++ q
  few : (k.live.card : ℤ) ≤ 2 * maxProcess - 2

theorem Queued.nodup (h : Queued k c q) : q.Nodup := Procs.nodup_of_map h.ring

theorem Queued.length_le (h : Queued k c q) : q.length ≤ k.live.card := by
  rw [← List.toFinset_card_of_nodup h.nodup]
  exact Finset.card_le_card fun p hp => ((h.mem p).1 (List.mem_toFinset.1 hp)).1

theorem Queued.length_lt (h : Queued k c q) : q.length < 8192 := by
  have h1 := h.length_le
  have h2 := h.few
  have h3 : maxProcess = 4096 := rfl
  omega

/-- The run queue depends on these fields only. -/
theorem Queued.congr (h : Queued k c q)
    (hn : ∀ x, x = .runList ∨ (∃ p, x = .runLink p) → k'.links.next x = k.links.next x ∧
      k'.links.prev x = k.links.prev x)
    (hm : ∀ p, p ∈ k'.live ∧ (k'.run p).state = .runnable ∧ p ≠ c' ∧ p ≠ k'.procs.idleproc ↔
      p ∈ k.live ∧ (k.run p).state = .runnable ∧ p ≠ c ∧ p ≠ k.procs.idleproc)
    (hq : ∀ p ∈ q, (k'.task p).queued = (k.task p).queued)
    (hu : ∀ p, p ∈ k'.live ∨ (∃ c, k'.procs.forking c = some p) →
      p ∈ k.live ∨ ∃ c, k.procs.forking c = some p)
    (hnum : k'.procNum = k.procNum) (henq : k'.enqueued = k.enqueued)
    (hdeq : k'.dequeued = k.dequeued) (hf : k'.live.card ≤ k.live.card) : Queued k' c' q where
  ring := by
    refine h.ring.congr (fun x hx => (hn x ?_).1) fun x hx => (hn x ?_).2
    all_goals
      rcases List.mem_cons.1 hx with rfl | hx
      · exact .inl rfl
      · obtain ⟨p, -, rfl⟩ := List.mem_map.1 hx
        exact .inr ⟨p, rfl⟩
  mem p := by rw [h.mem, hm]
  queued p hp := by rw [hq p hp, h.queued p hp]
  unlinked p hp hpq := by
    have := h.unlinked p (hu p hp) hpq
    rwa [listEmpty, (hn _ (.inr ⟨p, rfl⟩)).1]
  num := by rw [hnum, h.num]
  fifo := by rw [henq, hdeq, h.fifo]
  few := by
    have := h.few
    omega

/-- A process that can run, and is not in the queue, is linked in at its end. -/
theorem Queued.enqueue {k₀ : Sched S P T} (h : Queued k₀ c q) (c' : P) (hp : p ∉ q)
    (hl : p ∈ k.live ∨ ∃ c, k.procs.forking c = some p)
    (hk : k₀.links = k.links ∧ k₀.live = k.live ∧ k₀.task = k.task ∧ k₀.procNum = k.procNum ∧
      k₀.enqueued = k.enqueued ∧ k₀.dequeued = k.dequeued ∧ k₀.procs.forking = k.procs.forking)
    (hm : ∀ p', p' ∈ k.live ∧ (k.run p').state = .runnable ∧ p' ≠ c' ∧ p' ≠ k.procs.idleproc ↔
      p' ∈ q ∨ p' = p) :
    ∃ k', k.rrEnqueue p = .ok k' ∧ k'.procs = k.procs ∧ k'.current = k.current ∧ Same k k' ∧
      Queued k' c' (q ++ [p]) := by
  obtain ⟨h1, h2, h3, h4, h5, h6, h7⟩ := hk
  have hring := h1 ▸ h.ring
  have hpl : (.runLink p : SchedNode P T) ∉ .runList :: q.map .runLink := by
    simpa using hp
  have hlen := h.length_lt
  have he : listEmpty k.links (.runLink p) = true := by
    rw [← h1]
    exact h.unlinked p (by rwa [h2, h7]) hp
  have hout : ∀ x : SchedNode P T, x ∉ .runList :: q.map .runLink → x ≠ .runLink p →
      (listAddBefore k.links .runList (.runLink p)).next x = k.links.next x ∧
        (listAddBefore k.links .runList (.runLink p)).prev x = k.links.prev x := fun x hx hxp =>
    listAddBefore_outside hring hx hxp
  have hoff : ∀ x : SchedNode P T, (∀ p, x ≠ .runLink p) → x ≠ .runList →
      x ∉ .runList :: q.map .runLink := fun x hx hr hm => by
    rcases List.mem_cons.1 hm with e | hm
    · exact hr e
    · obtain ⟨p', -, e⟩ := List.mem_map.1 hm
      exact hx p' e.symm
  obtain ⟨k', hk', e1, e2, e3, e4, e5, e6, e7, hsame⟩ : ∃ k', k.rrEnqueue p = .ok k' ∧
      k'.links = listAddBefore k.links .runList (.runLink p) ∧ k'.procs = k.procs ∧
      k'.live = k.live ∧ k'.current = k.current ∧ k'.procNum = (k.procNum + 1) % 2 ^ 32 ∧
      k'.enqueued = k.enqueued ++ [p] ∧ k'.dequeued = k.dequeued ∧
      (∀ p', (k'.task p').queued = if p' = p then true else (k.task p').queued) ∧
      k'.timer = k.timer ∧ k'.waiters = k.waiters ∧ k'.pc = k.pc ∧ k'.inited = k.inited ∧
      k'.events = k.events := by
    refine ⟨_, if_pos he, rfl, rfl, rfl, rfl, rfl, rfl, rfl, fun p' => ?_, rfl, rfl, rfl, rfl, rfl⟩
    by_cases e : p' = p
    · simp [e]
    · simp [e]
  obtain ⟨htask, e8, e9, e10, e11, e12⟩ := hsame
  refine ⟨k', hk', e2, e4, ⟨e2 ▸ Procs.SameTable.refl _, e3, e8, e9, e10, e11, e12,
    fun x hx hr => ?_, fun x hx hr => ?_⟩, ?_, fun p' => ?_, fun p' hp' => ?_,
    fun p' hp' hpq => ?_, ?_, ?_, ?_⟩
  · rw [e1]
    exact (hout x (hoff x hx hr) (hx p)).1
  · rw [e1]
    exact (hout x (hoff x hx hr) (hx p)).2
  · rw [e1, List.map_append]
    exact circ_listAddBefore_tail hring hpl
  · rw [List.mem_append, List.mem_singleton, ← hm, e3, e2,
      show k'.run p' = k.run p' by rw [run, e2, run]]
  · rw [htask]
    by_cases e : p' = p
    · rw [if_pos e]
    · rw [if_neg e, ← h3]
      exact h.queued p'
        ((List.mem_append.1 hp').resolve_right fun hs => e (List.mem_singleton.1 hs))
  · rw [List.mem_append, List.mem_singleton, not_or] at hpq
    rw [e2, e3, ← h2, ← h7] at hp'
    have := h.unlinked p' hp' hpq.1
    rw [h1, listEmpty] at this
    have hn := (hout (.runLink p') (by simpa using hpq.1) (by simpa using hpq.2)).1
    rwa [e1, listEmpty, hn]
  · rw [e5, ← h4, h.num, List.length_append, List.length_singleton, Nat.mod_eq_of_lt (by omega)]
  · rw [e6, e7, ← h5, ← h6, h.fifo, List.append_assoc]
  · rw [e3, ← h2]
    exact h.few

/-- What a wakeup makes of the fields of its process. -/
def woken (g : Proc) : Proc := if g.state = .runnable then g else ⟨.runnable, 0⟩

@[simp] theorem woken_state (g : Proc) : (woken g).state = .runnable := by
  unfold woken
  split
  · assumption
  · rfl

theorem setRun_self (h : (k.run p).state = .runnable) :
    k.procs.setRun p (woken (k.run p)) = k.procs := by
  rw [woken, if_pos h]
  have hrun : { k.procs.pcb p with run := k.run p } = k.procs.pcb p := rfl
  rw [Procs.setRun, hrun, Procs.setPcb, Function.update_eq_self]

/-- **`wakeup_proc`.** -/
theorem Queued.wakeup (h : Queued k k.current q) (hp : p ∈ k.live)
    (hz : (k.run p).state ≠ .zombie) :
    ∃ k' q', k.wakeupProc p = .ok k' ∧ k'.procs = k.procs.setRun p (woken (k.run p)) ∧
      k'.current = k.current ∧ Same k k' ∧ Queued k' k'.current q' := by
  unfold wakeupProc
  rw [if_neg hz]
  by_cases hr : (k.run p).state = .runnable
  · rw [if_neg (not_not.2 hr)]
    exact ⟨k, q, rfl, (setRun_self hr).symm, rfl, Same.refl k, h⟩
  · rw [if_pos hr]
    have hpq : p ∉ q := fun hm => hr ((h.mem p).1 hm).2.1
    have hg : woken (k.run p) = ⟨.runnable, 0⟩ := if_neg hr
    rw [hg]
    have hstate : ∀ p', ((k.setRun p ⟨.runnable, 0⟩).run p').state = .runnable ↔
        p' = p ∨ (k.run p').state = .runnable := fun p' => by
      rw [run_setRun]
      by_cases e : p' = p
      · simp [e]
      · simp [e]
    have hsame : Same k (k.setRun p ⟨.runnable, 0⟩) :=
      ⟨⟨rfl, rfl, rfl, rfl, rfl, rfl, rfl⟩, rfl, rfl, rfl, rfl, rfl, rfl, fun _ _ _ => rfl,
        fun _ _ _ => rfl⟩
    by_cases hq : p ≠ k.current ∧ p ≠ k.procs.idleproc
    · have hne : p ≠ (k.setRun p ⟨.runnable, 0⟩).procs.idleproc := hq.2
      obtain ⟨k', hk', h1, h2, h3, h4⟩ := h.enqueue k.current (k := k.setRun p ⟨.runnable, 0⟩)
        hpq (.inl hp) ⟨rfl, rfl, rfl, rfl, rfl, rfl, rfl⟩ fun p' => by
          rw [hstate, h.mem]
          change p' ∈ k.live ∧ _ ∧ p' ≠ k.current ∧ p' ≠ k.procs.idleproc ↔ _
          constructor
          · rintro ⟨hl, rfl | hs, hc⟩
            · exact .inr rfl
            · exact .inl ⟨hl, hs, hc⟩
          · rintro (⟨hl, hs, hc⟩ | rfl)
            · exact ⟨hl, .inr hs, hc⟩
            · exact ⟨hp, .inl rfl, hq⟩
      refine ⟨k', _, ?_, h1, h2, hsame.trans h3, h2.symm ▸ h4⟩
      rw [if_pos hq.1, schedClassEnqueue, if_pos hne, hk']
    · have hko : (if p ≠ k.current then (k.setRun p ⟨.runnable, 0⟩).schedClassEnqueue p
          else .ok (k.setRun p ⟨.runnable, 0⟩)) = Except.ok (k.setRun p ⟨.runnable, 0⟩) := by
        split
        · rename_i hc
          have hi : ¬p ≠ (k.setRun p ⟨.runnable, 0⟩).procs.idleproc := fun hi => hq ⟨hc, hi⟩
          rw [schedClassEnqueue, if_neg hi]
        · rfl
      refine ⟨_, q, hko, rfl, rfl, hsame, h.congr (fun _ _ => ⟨rfl, rfl⟩) (fun p' => ?_)
        (fun _ _ => rfl) (fun _ h => h) rfl rfl rfl le_rfl⟩
      rw [hstate]
      change p' ∈ k.live ∧ _ ∧ p' ≠ k.current ∧ p' ≠ k.procs.idleproc ↔ _
      constructor
      · rintro ⟨hl, rfl | hs, hc⟩
        · exact absurd hc hq
        · exact ⟨hl, hs, hc⟩
      · rintro ⟨hl, hs, hc⟩
        exact ⟨hl, .inr hs, hc⟩

/-! ## Scheduling -/

/-- The process at the front of the queue is taken out. -/
theorem Queued.dequeue (h : Queued k k.procs.idleproc (p :: q)) : ∃ k', k.rrDequeue p = .ok k' ∧
    k'.procs = k.procs ∧ k'.task = k.task ∧ Same k k' ∧ Queued k' p q := by
  have hring : Circ k.links .runList ([] ++ .runLink p :: q.map .runLink) := h.ring
  have hm : (.runLink p : SchedNode P T) ∈ [] ++ .runLink p :: q.map .runLink := by simp
  have hcond : !listEmpty k.links (.runLink p) ∧ (k.task p).queued := by
    rw [listEmpty_of_mem hring hm]
    exact ⟨rfl, h.queued p List.mem_cons_self⟩
  have hout : ∀ x : SchedNode P T, (∀ p' ∈ p :: q, x ≠ .runLink p') → x ≠ .runList →
      (listDelInit k.links (.runLink p)).next x = k.links.next x ∧
        (listDelInit k.links (.runLink p)).prev x = k.links.prev x := fun x hx hr => by
    refine listDelInit_outside hring hm fun hxm => ?_
    rcases List.mem_cons.1 hxm with e | hxm
    · exact hr e
    · rw [List.nil_append, ← List.map_cons (f := SchedNode.runLink)] at hxm
      obtain ⟨p', hp', e⟩ := List.mem_map.1 hxm
      exact hx p' hp' e.symm
  have hlen := h.length_lt
  rw [List.length_cons] at hlen
  have hnd := List.nodup_cons.1 h.nodup
  refine ⟨_, if_pos hcond, rfl, rfl, ⟨Procs.SameTable.refl _, rfl, rfl, rfl, rfl, rfl, rfl,
    fun x hx hr => (hout x (fun p' _ => hx p') hr).1,
    fun x hx hr => (hout x (fun p' _ => hx p') hr).2⟩, circ_listDelInit hring, fun p' => ?_,
    fun p' hp' => h.queued p' (List.mem_cons_of_mem _ hp'), fun p' hp' hpq => ?_, ?_, ?_, h.few⟩
  · have hmem := h.mem p'
    rw [List.mem_cons] at hmem
    change _ ↔ p' ∈ k.live ∧ (k.run p').state = .runnable ∧ p' ≠ p ∧ p' ≠ k.procs.idleproc
    constructor
    · intro hq
      obtain ⟨h1, h2, -, h4⟩ := hmem.1 (.inr hq)
      exact ⟨h1, h2, fun e => hnd.1 (e ▸ hq), h4⟩
    · rintro ⟨h1, h2, h3, h4⟩
      exact (hmem.2 ⟨h1, h2, h4, h4⟩).resolve_left h3
  · change listEmpty (listDelInit k.links (.runLink p)) (.runLink p') = true
    by_cases e : p' = p
    · rw [e]
      exact listEmpty_listDelInit
    · have := h.unlinked p' hp' (by simp [e, hpq])
      rw [listEmpty] at this ⊢
      have hx : ∀ x ∈ p :: q, (.runLink p' : SchedNode P T) ≠ .runLink x := fun x hx he => by
        cases he
        exact (List.mem_cons.1 hx).elim e hpq
      rwa [(hout (.runLink p') hx (by simp)).1]
  · change (k.procNum + 2 ^ 32 - 1) % 2 ^ 32 = _
    rw [h.num, List.length_cons]
    omega
  · change k.enqueued = (k.dequeued ++ [p]) ++ q
    rw [h.fifo, List.append_assoc]
    rfl

/-- `k` up to the task of a process. -/
theorem Queued.setTask (h : Queued k c q) (f : Task → Task) (hf : ∀ g, (f g).queued = g.queued) :
    Queued (k.setTask p f) c q := by
  refine h.congr (fun _ _ => ⟨rfl, rfl⟩) (fun _ => Iff.rfl) (fun p' _ => ?_) (fun _ h => h) rfl rfl
    rfl le_rfl
  rw [task_setTask]
  by_cases e : p' = p
  · rw [if_pos e, hf, e]
  · rw [if_neg e]

theorem same_setTask (f : Task → Task) : Same k (k.setTask p f) :=
  ⟨Procs.SameTable.refl _, rfl, rfl, rfl, rfl, rfl, rfl, fun _ _ _ => rfl, fun _ _ _ => rfl⟩

/-- The current process goes to the end of the queue, if it can run. -/
theorem Queued.enqueueCurrent (h : Queued k k.current q) (hc : k.current ∈ k.live) :
    ∃ k' q', k.enqueueCurrent = .ok k' ∧ k'.procs = k.procs ∧ Same k k' ∧
      Queued k' k.procs.idleproc q' := by
  have hm : ∀ p', p' ∈ q ↔ p' ∈ k.live ∧ (k.run p').state = .runnable ∧ p' ≠ k.current ∧
    p' ≠ k.procs.idleproc := h.mem
  unfold Sched.enqueueCurrent schedClassEnqueue
  by_cases hr : (k.run k.current).state = .runnable ∧ k.current ≠ k.procs.idleproc
  · rw [if_pos hr.1, if_pos hr.2]
    have hcq : k.current ∉ q := fun hq => ((hm _).1 hq).2.2.1 rfl
    obtain ⟨k', hk', h1, -, h2, h3⟩ := h.enqueue k.procs.idleproc (k := k) hcq (.inl hc)
      ⟨rfl, rfl, rfl, rfl, rfl, rfl, rfl⟩ fun p' => by
        rw [hm]
        constructor
        · rintro ⟨hl, hs, -, hi⟩
          by_cases e : p' = k.current
          · exact .inr e
          · exact .inl ⟨hl, hs, e, hi⟩
        · rintro (⟨hl, hs, -, hi⟩ | rfl)
          · exact ⟨hl, hs, hi, hi⟩
          · exact ⟨hc, hr.1, hr.2, hr.2⟩
    exact ⟨k', _, hk', h1, h2, h3⟩
  · have hko : (if (k.run k.current).state = .runnable then
        if k.current ≠ k.procs.idleproc then k.rrEnqueue k.current else .ok k
      else .ok k) = Except.ok k := by
      split
      · rename_i h1
        exact if_neg fun h2 => hr ⟨h1, h2⟩
      · rfl
    refine ⟨k, q, hko, rfl, Same.refl k, h.congr (fun _ _ => ⟨rfl, rfl⟩) (fun p' => ?_)
      (fun _ _ => rfl) (fun _ h => h) rfl rfl rfl le_rfl⟩
    constructor
    · rintro ⟨hl, hs, hi, -⟩
      exact ⟨hl, hs, fun e => hr ⟨e ▸ hs, e ▸ hi⟩, hi⟩
    · rintro ⟨hl, hs, -, hi⟩
      exact ⟨hl, hs, hi, hi⟩

theorem Queued.pickNext (h : Queued k c q) : k.rrPickNext = q.head? := by
  have hn := h.ring.next_head
  unfold rrPickNext listNext
  rw [hn]
  cases q with
  | nil => rfl
  | cons p q => rfl

/-- **`schedule`** runs the process at the front of the queue, or else `idleproc`. -/
theorem Queued.schedule (h : Queued k k.current q) (hc : k.current ∈ k.live) :
    ∃ k' q', k.schedule = .ok k' ∧ k'.procs = k.procs ∧ Same k k' ∧ Queued k' k'.current q' ∧
      (k'.current = k.procs.idleproc ∨
        k'.current ∈ k.live ∧ (k.run k'.current).state = .runnable) := by
  have h₀ : Queued (k.setTask k.current fun g => { g with needResched := false }) k.current q :=
    h.setTask _ fun _ => rfl
  obtain ⟨k₁, q₁, hk₁, hp₁, hs₁, h₁⟩ := h₀.enqueueCurrent hc
  have hsame := (same_setTask (k := k) (p := k.current)
    fun g => { g with needResched := false }).trans hs₁
  have hidle : k₁.procs.idleproc = k.procs.idleproc := by rw [hp₁]; rfl
  unfold Sched.schedule
  simp only [bind, Except.bind, hk₁, h₁.pickNext]
  cases q₁ with
  | nil =>
    refine ⟨_, [], rfl, hp₁, hsame.trans ⟨Procs.SameTable.refl _, rfl, rfl, rfl, rfl, rfl, rfl,
      fun _ _ _ => rfl, fun _ _ _ => rfl⟩, ?_, .inl hidle⟩
    have h₂ : Queued k₁ k₁.procs.idleproc [] := hidle.symm ▸ h₁
    exact (h₂.setTask (fun g => { g with runs := g.runs + 1 }) fun _ => rfl).congr
      (fun _ _ => ⟨rfl, rfl⟩) (fun _ => Iff.rfl)
      (fun _ _ => rfl) (fun _ h => h) rfl rfl rfl le_rfl
  | cons n ns =>
    have h₂ : Queued k₁ k₁.procs.idleproc (n :: ns) := hidle.symm ▸ h₁
    obtain ⟨k₃, hk₃, hp₃, -, hs₃, h₃⟩ := h₂.dequeue
    have hn := (h₁.mem n).1 List.mem_cons_self
    simp only [List.head?_cons, hk₃]
    refine ⟨_, ns, rfl, hp₃.trans hp₁, (hsame.trans hs₃).trans ⟨Procs.SameTable.refl _, rfl, rfl,
      rfl, rfl, rfl, rfl, fun _ _ _ => rfl, fun _ _ _ => rfl⟩, ?_, .inr ⟨?_, ?_⟩⟩
    · exact (h₃.setTask (fun g => { g with runs := g.runs + 1 }) fun _ => rfl).congr
        (fun _ _ => ⟨rfl, rfl⟩) (fun _ => Iff.rfl) (fun _ _ => rfl)
          (fun _ h => h) rfl rfl rfl le_rfl
    · have hl := hn.1
      rw [hs₁.live] at hl
      exact hl
    · have hr := hn.2.1
      rw [run, hp₁] at hr
      exact hr

/-! ## Exit -/

/-- Processes have been woken, and nothing else has happened to their states. -/
def Wakes (k k' : Sched S P T) : Prop :=
  ∀ p, k'.run p = k.run p ∨ p ∈ k.live ∧ k'.run p = woken (k.run p)

theorem woken_woken (g : Proc) : woken (woken g) = woken g := by
  rw [woken, if_pos (woken_state g)]

theorem Wakes.refl (k : Sched S P T) : Wakes k k := fun _ => .inl rfl

theorem Wakes.trans {k₁ k₂ k₃ : Sched S P T} (h : Wakes k₁ k₂) (h' : Wakes k₂ k₃)
    (hl : k₂.live = k₁.live) : Wakes k₁ k₃ := by
  intro p
  rcases h p with h | ⟨hp, h⟩ <;> rcases h' p with h' | ⟨hp', h'⟩
  · exact .inl (h'.trans h)
  · exact .inr ⟨hl ▸ hp', h'.trans (by rw [h])⟩
  · exact .inr ⟨hp, h'.trans h⟩
  · exact .inr ⟨hp, h'.trans (by rw [h, woken_woken])⟩

/-- One process has been woken. -/
theorem Wakes.wakeup (hp : p ∈ k.live) (h : k'.procs = k.procs.setRun p (woken (k.run p))) :
    Wakes k k' := by
  intro r
  change (k'.procs.pcb r).run = k.run r ∨ _ ∧ (k'.procs.pcb r).run = woken (k.run r)
  rw [h, Procs.pcb_setRun]
  by_cases e : r = p
  · subst e
    exact .inr ⟨hp, if_pos rfl⟩
  · exact .inl (if_neg e)

/-- The run queue agrees still, after processes have been woken. -/
structure Woke (k k' : Sched S P T) : Prop where
  current : k'.current = k.current
  same : Same k k'
  wakes : Wakes k k'
  queued : ∃ q, Queued k' k'.current q

theorem Woke.refl (h : Queued k k.current q) : Woke k k :=
  ⟨rfl, Same.refl k, Wakes.refl k, q, h⟩

theorem Woke.trans {k₁ k₂ k₃ : Sched S P T} (h : Woke k₁ k₂) (h' : Woke k₂ k₃) : Woke k₁ k₃ :=
  ⟨h'.current.trans h.current, h.same.trans h'.same,
    h.wakes.trans h'.wakes h.same.live, h'.queued⟩

theorem procs_wakeupProc (hz : (k.run p).state ≠ .zombie) :
    k.procs.wakeupProc p = some (k.procs.setRun p (woken (k.run p))) := by
  have hg : (k.run p).wakeup = some (woken (k.run p)) := by
    unfold Proc.wakeup woken
    rw [if_neg hz]
    split <;> simp_all
  unfold Procs.wakeupProc
  change (do let g ← (k.run p).wakeup; some (k.procs.setRun p g)) = _
  rw [hg]
  rfl

/-- `wakeup_proc` of a process that may be a zombie. -/
theorem Queued.wakeupProc (h : Queued k k.current q) (hp : p ∈ k.live) :
    Safe (k.wakeupProc p) fun k' => k.procs.wakeupProc p = some k'.procs ∧ Woke k k' := by
  by_cases hz : (k.run p).state = .zombie
  · have : k.wakeupProc p = .error .panic := if_pos hz
    rw [this]
    exact Safe.panic
  · obtain ⟨k', q', hk', hp', hc, hs, hq⟩ := h.wakeup hp hz
    exact Safe.of_eq hk' ⟨(procs_wakeupProc hz).trans (congrArg some hp'.symm), hc, hs,
      Wakes.wakeup hp hp', q', hq⟩

theorem Queued.wakeupProcIf (h : Queued k k.current q) (hp : p ∈ k.live) (b : Prop) [Decidable b] :
    Safe (k.wakeupProcIf b p) fun k' => k.procs.wakeupProcIf b p = some k'.procs ∧ Woke k k' := by
  unfold Sched.wakeupProcIf Procs.wakeupProcIf
  split
  · exact h.wakeupProc hp
  · exact ⟨rfl, Woke.refl h⟩

/-- Writes to the process table that leave the states of processes alone. -/
theorem Queued.setProcs (h : Queued k c q) {s : Procs P} (ht : Procs.SameTable k.procs s)
    (hr : ∀ p, (s.pcb p).run = (k.procs.pcb p).run) : Queued { k with procs := s } c q := by
  have hrun : ∀ p, ({ k with procs := s } : Sched S P T).run p = k.run p := hr
  obtain ⟨-, -, -, -, h5, -, h7⟩ := ht
  refine h.congr (fun _ _ => ⟨rfl, rfl⟩) (fun p => ?_) (fun _ _ => rfl) (fun p hp => ?_) rfl rfl rfl
    le_rfl
  · rw [hrun]
    change _ ∧ _ ∧ _ ∧ p ≠ s.idleproc ↔ _
    rw [h5]
  · rcases hp with hp | ⟨c', hp⟩
    · exact .inl hp
    · exact .inr ⟨c', h7 ▸ hp⟩

theorem woke_setProcs (h : Queued k k.current q) {s : Procs P} (ht : Procs.SameTable k.procs s)
    (hr : ∀ p, (s.pcb p).run = (k.procs.pcb p).run) : Woke k { k with procs := s } :=
  ⟨rfl, ⟨ht, rfl, rfl, rfl, rfl, rfl, rfl, fun _ _ _ => rfl, fun _ _ _ => rfl⟩,
    fun p => .inl (hr p), q, h.setProcs ht hr⟩

/-- **The loop of `do_exit`.** -/
theorem Queued.reparent {i : P} : ∀ {n : ℕ} {k : Sched S P T} {q : List P},
    Queued k k.current q → ∀ cur, i ∈ k.live → Safe (reparent cur i n k) fun k' =>
      Procs.reparent cur i n k.procs = some k'.procs ∧ Woke k k'
  | 0, _, _, _, _, _ => Safe.panic
  | n + 1, k, q, h, cur, hi => by
    unfold Sched.reparent Procs.reparent
    cases hc : (k.procs.pcb cur).cptr with
    | none => exact Safe.ok ⟨rfl, Woke.refl h⟩
    | some proc =>
      obtain ⟨s, hs⟩ : ∃ s, s = ((((((k.procs.setCptr cur (k.procs.pcb proc).optr).setYptr proc
        none).setOptr proc (((k.procs.setCptr cur (k.procs.pcb proc).optr).setYptr proc none).pcb
          i).cptr).setYptr? ((((k.procs.setCptr cur (k.procs.pcb proc).optr).setYptr proc
            none).setOptr proc
              (((k.procs.setCptr cur (k.procs.pcb proc).optr).setYptr proc none).pcb
              i).cptr).pcb i).cptr (some proc)).setParent proc (some i)).setCptr i (some proc)) :=
        ⟨_, rfl⟩
      have ht : Procs.SameTable k.procs s := hs ▸ ⟨rfl, rfl, rfl, rfl, rfl, rfl, rfl⟩
      have hr : ∀ p, (s.pcb p).run = (k.procs.pcb p).run := fun p => by simp [hs]
      have hw := woke_setProcs h ht hr
      have h₁ := h.setProcs ht hr
      dsimp only
      rw [← hs]
      refine (Queued.wakeupProcIf (k := { k with procs := s }) h₁ hi _).bind fun k₁ hk₁ => ?_
      obtain ⟨e₁, w₁⟩ := hk₁
      obtain ⟨q₁, h₂⟩ := w₁.queued
      have hi₁ : i ∈ k₁.live := by rw [w₁.same.live]; exact hi
      refine (Queued.reparent h₂ cur hi₁).mono fun k₂ hk₂ => ⟨?_, (hw.trans w₁).trans hk₂.2⟩
      rw [Option.bind_eq_bind, Option.bind_eq_some_iff]
      exact ⟨_, e₁, hk₂.1⟩

@[simp] theorem run_setZombie (code : ℤ) (p : P) : (k.setZombie code).run p =
    if p = k.current then ⟨.zombie, (k.run k.current).waitState⟩ else k.run p := by
  simp [setZombie, run]

theorem Queued.setZombie (h : Queued k k.current q) (code : ℤ) :
    Queued (k.setZombie code) k.current q := by
  refine h.congr (fun _ _ => ⟨rfl, rfl⟩) (fun p => ?_) (fun _ _ => rfl) (fun _ h => h) rfl rfl rfl
    le_rfl
  refine and_congr_right fun _ => ?_
  change _ ∧ p ≠ k.current ∧ p ≠ k.procs.idleproc ↔ _
  rw [run_setZombie]
  by_cases hp : p = k.current
  · simp [hp]
  · rw [if_neg hp]

/-- **`do_exit`**, up to the process's own place. -/
theorem Queued.exit (h : Queued k k.current q) (code : ℤ)
    (hpar : ∀ p, (k.procs.pcb k.current).parent = some p → p ∈ k.live)
    (hinit : ∀ i, k.procs.initproc = some i → i ∈ k.live) :
    Safe (k.doExit code) fun k' => ∃ k₁, k' = k₁.setPc k.current (.call .exit) ∧
      k.procs.doExit k.current code = some k₁.procs ∧ Woke (k.setZombie code) k₁ := by
  unfold Sched.doExit Procs.doExit
  split
  · exact Safe.panic
  · refine (Safe.orPanic (Q := fun i => k.procs.initproc = some i) fun _ h => h).bind fun i hi => ?_
    have hpcb : ((k.setZombie code).procs.pcb k.current).parent =
        (k.procs.pcb k.current).parent := by simp [Sched.setZombie]
    simp only [hi, Option.bind_eq_bind, Option.bind_some]
    refine (Safe.orPanic (Q := fun p => ((k.setZombie code).procs.pcb k.current).parent = some p)
      fun _ h => h).bind fun p hp => ?_
    have hz : Queued (k.setZombie code) (k.setZombie code).current q := h.setZombie code
    have hpl : p ∈ (k.setZombie code).live := hpar p (hpcb ▸ hp)
    refine (hz.wakeupProcIf hpl _).bind fun k₁ hk₁ => ?_
    obtain ⟨e₁, w₁⟩ := hk₁
    obtain ⟨q₁, h₁⟩ := w₁.queued
    have hi₁ : i ∈ k₁.live := by
      rw [w₁.same.live]
      exact hinit i hi
    have hc₁ : k₁.current = k.current := w₁.current
    refine (h₁.reparent k₁.current (n := Procs.fuel) hi₁).bind fun k₂ hk₂ => ?_
    obtain ⟨e₂, w₂⟩ := hk₂
    refine Safe.ok ⟨k₂, by rw [w₂.current, hc₁], ?_, w₁.trans w₂⟩
    change ((k.setZombie code).procs.pcb k.current).parent.bind _ = _
    rw [hp, Option.bind_some, Option.bind_eq_some_iff]
    exact ⟨_, e₁, hc₁ ▸ e₂⟩

end Sched

end Ucore
