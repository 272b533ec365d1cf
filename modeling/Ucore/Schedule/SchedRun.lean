/-
  Runs of the scheduler.

  * `Inv.step`: a legal step fails no assertion of the run queue, and keeps the invariant;
  * `run_queue_agrees`: the run queue in every state reached;
  * `timers_on_time`: the timers in every state reached.
-/
import Ucore.Schedule.Owners

namespace Ucore

open Intrusive DeltaList

set_option linter.unusedSectionVars false

variable {S P T : Type} [DecidableEq S] [DecidableEq P] [DecidableEq T] [Fintype T]

namespace Sched

variable {k k' : Sched S P T} {p q : P} {t u : T} {s : S} {op : SchedOp S P T}

/-! ## Exit and wait -/

/-- The current process exits. -/
theorem Inv.doExit (h : Inv k) (hrun : (k.run k.current).state = .runnable)
    (hf : k.procs.forking k.current = none) (hq : k.Quiet k.current)
    (hs : ∀ t, ¬k.At k.current (.sleep t)) (hw : ∀ s, k.current ∉ k.waiters s) (code : ℤ) :
    Safe (k.doExit code) Inv := by
  obtain ⟨qs, hqs⟩ := h.queue
  obtain ⟨ts, hts, hrd⟩ := h.timers
  obtain ⟨i, hi, hil, -, -⟩ := h.table.init
  have hil := (Finset.mem_erase.1 hil).2
  refine (hqs.exit code (fun p hp => ?_) fun j hj => ?_).mono fun k' ⟨k₁, hk', hp, hw₁⟩ => ?_
  · by_cases e : k.current = k.procs.idleproc
    · rw [e, h.table.tree.idleParent] at hp
      cases hp
    · obtain ⟨r, hr, hrp, -⟩ := h.table.tree.parent _ (Finset.mem_erase.2 ⟨e, h.rest.current⟩)
      rw [hrp] at hp
      cases hp
      exact hr
  · rw [hi] at hj
    cases hj
    exact hil
  have hne : k.current ≠ k.procs.idleproc ∧ some k.current ≠ k.procs.initproc := by
    by_contra hne
    rw [not_and_or, not_not, not_not] at hne
    unfold Procs.doExit at hp
    rw [if_pos hne] at hp
    cases hp
  have hlive : k₁.live = k.live := hw₁.same.live
  have htable : (⟨k₁.procs, k₁.live⟩ : ProcSys P).Inv := by
    obtain ⟨w', hw', hi'⟩ := h.tableStep (.exit k.current code)
      ⟨⟨h.rest.current, hrun, hf⟩, hne⟩
    simp only [ProcSys.step, hp, Option.bind_eq_bind, Option.bind_some, Option.some.injEq] at hw'
    rw [hlive]
    exact hw' ▸ hi'
  have hcur : k₁.current = k.current := hw₁.current
  have hst := hw₁.same.table
  have hpc' : ∀ p, k'.pc p = if p = k.current then .call .exit else k.pc p := fun p => by
    rw [hk', pc_setPc, hw₁.same.pc]
    rfl
  have hrun' : ∀ p, p ≠ k.current → k'.run p = k.run p ∨ p ∈ k.live ∧ k'.run p = woken (k.run p) :=
    fun p hpne => by
      have hz : (k.setZombie code).run p = k.run p := by rw [run_setZombie, if_neg hpne]
      have := hw₁.wakes p
      rw [hz] at this
      rw [hk']
      exact this
  have hat : ∀ c, k'.At k.current c → .exit = c := fun c ha => by
    rw [At, hpc', if_pos rfl] at ha
    simpa using ha
  have hfr : Frame k k' := by
    rw [hk']
    refine ⟨hlive, hst.2.2.2.2.1, hst.2.2.2.2.2.2, fun t ht => ?_, fun t _ => ?_, fun s h1 h2 => ?_⟩
    · exact (congrFun hw₁.same.inited t).trans ht
    · exact congrArg Timer.proc (congrFun hw₁.same.timer t)
    · have hws : (k₁.setPc k.current (.call .exit)).waiters = k.waiters := hw₁.same.waiters
      rw [hws]
      exact ⟨h1, h2⟩
  have ho : ∀ p, p ≠ k.current → Other k k' p := fun p hpne =>
    ⟨by rw [hpc', if_neg hpne], hrun' p hpne, fun s hs => by
      rw [hk'] at hs
      change p ∈ k₁.waiters s at hs
      rwa [hw₁.same.waiters] at hs⟩
  obtain ⟨q₁, hq₁⟩ := hw₁.queued
  have htimer : k'.timer = k.timer := by
    rw [hk']
    exact hw₁.same.timer
  have hcur' : k'.current = k.current := by
    rw [hk']
    exact hcur
  refine ⟨?_, ⟨q₁, ?_⟩, ⟨ts, ?_, fun t ht => ?_⟩, h.rest.move h.child hfr ho ⟨fun e => ?_,
    fun pid ha => ?_, fun _ => .inl ?_, fun s hs => ?_, fun t ha => ?_⟩ (hcur' ▸ h.rest.current)
    fun hc => ?_⟩
  · rw [hk']
    exact htable
  · rw [hk']
    exact hq₁.setPc _
  · rw [hk']
    refine Timed.setPc (Timed.same (k := k.setZombie code) ?_ hw₁.same) _
    exact ⟨hts.ring, hts.times, hts.first, hts.bound, hts.inited, hts.unlinked, hts.onTime⟩
  · rw [htimer]
    exact (hrd t ht).other hfr (ho _ (h.notQuiet hq hs hts t ht))
  · rw [hfr.idle] at e
    exact absurd e hne.1
  · cases hat _ ha
  · rw [hpc', if_pos rfl]
  · rw [hk'] at hs
    change k.current ∈ k₁.waiters s at hs
    rw [hw₁.same.waiters] at hs
    exact absurd hs (hw s)
  · cases hat _ ha
  · rw [hcur', hpc', if_pos rfl] at hc
    exact absurd rfl (hc _)

/-- A zombie is reaped, and the current process goes on. -/
theorem Inv.reap (h : Inv k) (hpc : ∀ c, k.pc k.current ≠ .call c)
    (hw : ∀ s, k.current ∉ k.waiters s) (hz : (k.run q).state = .zombie) {s' : Procs P}
    (ht : (⟨s', k.live.erase q⟩ : ProcSys P).Inv) (hidle : s'.idleproc = k.procs.idleproc)
    (hfork : s'.forking = k.procs.forking) (hrun : ∀ p, (s'.pcb p).run = k.run p) :
    Inv ({ k with procs := s', live := k.live.erase q }.setPc k.current .run) := by
  obtain ⟨qs, hqs⟩ := h.queue
  obtain ⟨ts, hts, hrd⟩ := h.timers
  have hr := h.rest.running hpc
  have hcq : k.current ≠ q := fun e => by
    rw [e, hz] at hr
    cases hr
  have hr₁ := (h.runs hpc hw).rest
  refine ⟨ht, ⟨qs, hqs.congr (fun _ _ => ⟨rfl, rfl⟩) (fun p => ?_) (fun _ _ => rfl)
    (fun p hp => ?_) rfl rfl rfl (Finset.card_le_card (Finset.erase_subset _ _))⟩,
    ⟨ts, ⟨hts.ring, hts.times, hts.first, hts.bound, hts.inited, hts.unlinked, hts.onTime⟩,
      fun t htm => ?_⟩, ⟨Finset.mem_erase.2 ⟨hcq, h.rest.current⟩, fun _ => ?_, fun p hp => ?_,
        fun s => ?_, fun p r hpr => ?_⟩⟩
  · change p ∈ k.live.erase q ∧ (s'.pcb p).run.state = .runnable ∧ p ≠ k.current ∧ p ≠ s'.idleproc ↔
      p ∈ k.live ∧ (k.run p).state = .runnable ∧ p ≠ k.current ∧ p ≠ k.procs.idleproc
    rw [hrun, hidle, Finset.mem_erase]
    constructor
    · rintro ⟨⟨-, h1⟩, h2⟩
      exact ⟨h1, h2⟩
    · rintro ⟨h1, h2, h3⟩
      refine ⟨⟨?_, h1⟩, h2, h3⟩
      rintro rfl
      rw [hz] at h2
      cases h2
  · change p ∈ k.live.erase q ∨ (∃ c, s'.forking c = some p) at hp
    rw [hfork] at hp
    exact hp.imp_left fun hm => (Finset.mem_erase.1 hm).2
  · obtain ⟨h1, h2, h3⟩ := hrd t htm
    change (k.timer t).proc ∈ k.live.erase q ∧ (s'.pcb (k.timer t).proc).run.state ≠ .zombie ∧
      ((s'.pcb (k.timer t).proc).run.waitState = 0 ∨
        (s'.pcb (k.timer t).proc).run.waitState &&& wtInterrupted ≠ 0)
    rw [hrun]
    exact ⟨Finset.mem_erase.2 ⟨fun e => h2 (e ▸ hz), h1⟩, h2, h3⟩
  · change (s'.pcb k.current).run.state = _
    rw [hrun, hr]
  · obtain ⟨h1, h2, h3, h4, h5⟩ := hr₁.here p (Finset.mem_erase.1 hp).2
    refine ⟨fun e => ?_, fun pid ha => ?_, fun hzp => h3 ?_, h4, h5⟩
    · change (s'.pcb p).run.state = _ ∧ _
      rw [hrun]
      exact h1 (e.trans hidle)
    · change s'.forking p = none
      rw [hfork]
      exact h2 pid ha
    · change (s'.pcb p).run.state = .zombie at hzp
      rwa [hrun] at hzp
  · obtain ⟨h1, h2⟩ := h.rest.waiters s
    refine ⟨h1, fun p hp => Finset.mem_erase.2 ⟨?_, h2 p hp⟩⟩
    rintro rfl
    -- a zombie is not in a wait queue
    have ha := (h.rest.here p (h2 p hp)).waiters s hp
    rcases (h.rest.here p (h2 p hp)).exited hz with e | e <;> rcases ha with e' | e' <;>
      rw [e] at e' <;> cases e'
  · change s'.forking p = some r at hpr
    rw [hfork] at hpr
    change (s'.pcb r).run.state = _ ∧ _
    rw [hrun]
    obtain ⟨h1, h2⟩ := h.rest.children p r hpr
    refine ⟨h1, ?_⟩
    change Function.update k.pc k.current .run r = .run
    rw [Function.update_apply]
    split
    · rfl
    · exact h2

/-- One pass of `do_wait`. -/
theorem Inv.doWait (h : Inv k) (hpc : ∀ c, k.pc k.current ≠ .call c)
    (hf : k.procs.forking k.current = none) (hi : k.current ≠ k.procs.idleproc)
    (hs : ∀ t, ¬k.At k.current (.sleep t)) (hw : ∀ s, k.current ∉ k.waiters s) (pid : ℤ) :
    Safe (k.doWait pid) Inv := by
  have hr := h.rest.running hpc
  obtain ⟨haskid, o, hsearch, ho⟩ := h.table.tree.waitSearch_spec
    (ProcSys.card_le_fuel h.table.tree h.table.forks) h.rest.current pid
  obtain ⟨w', hw', ht⟩ := h.tableStep (.wait k.current pid) ⟨h.rest.current, hr, hf⟩
  unfold Sched.doWait
  simp only [hsearch]
  cases hd : k.procs.doWait k.current pid with
  | none => exact Safe.panic
  | some r =>
    obtain ⟨res, s'⟩ := r
    simp only [ProcSys.step, hsearch, hd, Option.bind_eq_bind, Option.bind_some,
      Option.some.injEq] at hw'
    subst hw'
    cases o with
    | some q =>
      obtain ⟨hql, -, hqz⟩ := ho q rfl
      obtain ⟨s₁, hs₁, -, -, h2, -, h4, h5⟩ := h.table.tree.reap hql hqz
      have hss : s' = s₁ := by
        unfold Procs.doWait at hd
        simp only [hsearch, Option.bind_eq_bind, Option.bind_some] at hd
        split_ifs at hd
        rw [hs₁] at hd
        simp only [Option.bind_some, Option.some.injEq, Prod.mk.injEq] at hd
        exact hd.2.symm
      subst hss
      exact Safe.ok (h.reap hpc hw hqz ht h2 h4 fun p => (h5 p).1)
    | none =>
      unfold Procs.doWait at hd
      simp only [hsearch, Option.bind_eq_bind, Option.bind_some] at hd
      cases haskid with
      | true =>
        cases hd
        exact Safe.ok
          (h.sleeps wtChild (c := .wait pid) hi hs (.inr (.inl (by decide))) (fun _ _ => hf) hw
          fun t e => by cases e)
      | false =>
        cases hd
        exact Safe.ok (h.runs hpc hw)

/-! ## The return from `schedule()` -/

theorem Inv.downResume (h : Inv k) (s : S) (hpc : k.pc k.current = .inside (.down s)) :
    Safe (k.downResume s) Inv := by
  obtain ⟨hnd, hl⟩ := h.rest.waiters s
  have h₁ := h.setWaiters (s := s) ((k.waiters s).erase k.current) (hnd.erase _) fun p hp => by
    have hm := List.mem_of_mem_erase hp
    exact ⟨hl p hm, (h.rest.here p (hl p hm)).waiters s hm⟩
  unfold Sched.downResume
  dsimp only
  split
  · refine Safe.ok (h₁.runs (fun c e => ?_) fun s' hs' => ?_)
    · change k.pc k.current = _ at e
      rw [hpc] at e
      cases e
    · change k.current ∈ _ at hs'
      rw [waiters_setWaiters] at hs'
      by_cases e : s' = s
      · rw [if_pos e] at hs'
        exact hnd.not_mem_erase hs'
      · rw [if_neg e] at hs'
        have ha := (h.rest.here _ h.rest.current).waiters s' hs'
        rw [At, hpc] at ha
        exact e (by simpa using ha.symm : s = s').symm
  · exact Safe.panic

theorem Inv.notWaiting_of_pc (h : Inv k) {c : Cont S T} (hpc : k.pc k.current = .inside c)
    (hc : ∀ s, c ≠ .down s) (s : S) : k.current ∉ k.waiters s := fun hs => by
  have ha := (h.rest.here _ h.rest.current).waiters s hs
  rw [At, hpc] at ha
  exact hc s (by simpa using ha)

/-- **A sleeper goes on**, and its timer is not linked. -/
theorem Inv.resumeSleep (h : Inv k) (hpc : k.pc k.current = .inside (.sleep t)) :
    ∃ k', k.resume (.sleep t) = .ok k' ∧ Inv k' ∧ listEmpty k'.links (.timerLink t) = true ∧
      k'.events = .del t :: k.events := by
  obtain ⟨hi, -⟩ := (h.rest.here _ h.rest.current).sleepers t (.inr hpc)
  obtain ⟨h₁, hs, he⟩ := h.delTimer hi
  obtain ⟨k₁, hk₁⟩ : ∃ k₁, k₁ = (k.delTimer t).record (.del t) := ⟨_, rfl⟩
  have hcur : (k.delTimer t).current = k.current := by rw [hs.eq]
  have hp : (k.delTimer t).pc = k.pc := by rw [hs.eq]
  have hev : (k.delTimer t).events = k.events := by rw [hs.eq]
  have hcur : k₁.current = k.current := by
    rw [hk₁]
    exact hcur
  have hp : k₁.pc = k.pc := by
    rw [hk₁]
    exact hp
  have hpc₁ : k₁.pc k₁.current = .inside (.sleep t) := by rw [hcur, hp, hpc]
  have hev : k₁.events = .del t :: k.events := by
    rw [hk₁]
    exact congrArg (Event.del t :: ·) hev
  rw [← hk₁] at h₁
  refine ⟨k₁.setPc k₁.current .run, ?_, h₁.runs (fun c e => ?_)
    (h₁.notWaiting_of_pc hpc₁ (by simp)), ?_, hev⟩
  · rw [hcur]
    unfold Sched.resume
    rw [hk₁]
  · rw [hpc₁] at e
    cases e
  · rw [hk₁]
    exact he

theorem Inv.resume (h : Inv k) (hl : k.Legal .resume) : Safe (k.step .resume) Inv := by
  simp only [Legal] at hl
  unfold Sched.step
  cases hpc : k.pc k.current with
  | run => exact Safe.panic
  | call c => exact Safe.panic
  | inside c =>
    have hnc : ∀ c', k.pc k.current ≠ .call c' := fun c' e => by
      rw [hpc] at e
      cases e
    cases c with
    | plain => exact Safe.ok (h.runs hnc (h.notWaiting_of_pc hpc (by simp)))
    | sleep t =>
      obtain ⟨k', hk', hi, -⟩ := h.resumeSleep hpc
      exact Safe.of_eq hk' hi
    | down s => exact h.downResume s hpc
    | wait pid =>
      rw [hpc] at hl
      have hs : ∀ t, ¬k.At k.current (.sleep t) := fun t ha => by
        rw [At, hpc] at ha
        simp at ha
      have hf := (h.rest.here _ h.rest.current).wait pid (.inr hpc)
      have hw := h.notWaiting_of_pc hpc (by simp)
      have hi : k.current ≠ k.procs.idleproc := fun e => by
        have := ((h.rest.here _ h.rest.current).idle e).2
        rw [hpc] at this
        simp at this
      change Safe (if (k.task k.current).exiting then k.doExit (-eKilled) else k.doWait pid) Inv
      split
      · exact h.doExit (h.rest.running hnc) hf hl hs hw _
      · exact h.doWait hnc hf hi hs hw pid
    | exit => exact Safe.panic

/-! ## Fork -/

theorem Queued.forkBegin {qs : List P} (h : Queued k k.current qs) (hq : q ∉ k.live) :
    Queued (k.doForkBegin q) (k.doForkBegin q).current qs := by
  rcases doForkBegin_cases k q with e | ⟨k', e, -, hidle, hfork, -, hrun, hk'⟩
  · rw [e]
    exact h
  · rw [e]
    have hqs : ∀ p ∈ qs, p ≠ q := by
      rintro p hp rfl
      exact hq ((h.mem p).1 hp).1
    have hlive : ∀ p ∈ k.live, p ≠ q := by
      rintro p hp rfl
      exact hq hp
    have hlinks : k'.links = listInit k.links (.runLink q) := by rw [hk']
    have hl' : k'.live = k.live := by rw [hk']
    have hc' : k'.current = k.current := by rw [hk']
    have hout : ∀ x, x ≠ (.runLink q : SchedNode P T) → k'.links.next x = k.links.next x ∧
        k'.links.prev x = k.links.prev x := fun x hx => by
      simp [hlinks, listInit, hx]
    refine ⟨?_, fun p => ?_, fun p hp => ?_, fun p hp hpq => ?_, ?_, ?_, by rw [hl']; exact h.few⟩
    · refine h.ring.congr (fun x hx => (hout x ?_).1) fun x hx => (hout x ?_).2
      all_goals
        rintro rfl
        simp only [List.mem_cons, reduceCtorEq, false_or, List.mem_map, SchedNode.runLink.injEq,
          exists_eq_right] at hx
        exact hqs q hx rfl
    · rw [h.mem, hl', hc', hidle]
      constructor
      · rintro ⟨h1, h2⟩
        rw [hrun p (hlive p h1)]
        exact ⟨h1, h2⟩
      · rintro ⟨h1, h2⟩
        rw [hrun p (hlive p h1)] at h2
        exact ⟨h1, h2⟩
    · rw [hk']
      dsimp only
      rw [Function.update_of_ne (hqs p hp)]
      exact h.queued p hp
    · by_cases e : p = q
      · rw [e, hlinks]
        simp [listEmpty, listInit]
      · have := h.unlinked p ?_ hpq
        · rwa [listEmpty, (hout _ (by simpa using e)).1]
        · rcases hp with hp | ⟨c, hc⟩
          · exact .inl (hl' ▸ hp)
          · refine .inr ⟨c, ?_⟩
            rw [hfork, Function.update_apply] at hc
            split at hc
            · exact absurd (Option.some.inj hc).symm e
            · exact hc
    · rw [hk']
      exact h.num
    · rw [hk']
      exact h.fifo

theorem Core.forkBegin (h : Core k) (f : ProcSys.Forks k.procs k.live) (hr : k.Running)
    (hq : (⟨k.procs, k.live⟩ : ProcSys P).Fresh q) : Core (k.doForkBegin q) := by
  obtain ⟨qs, hqs⟩ := h.queue
  obtain ⟨ts, hts, hrd⟩ := h.timers
  have hrun := h.rest.running fun c e => by rw [hr] at e; cases e
  have hqs' := hqs.forkBegin hq.1
  rcases doForkBegin_cases k q with e | ⟨k', e, -, hidle, hfork, hst, hrn, hk'⟩
  · rw [e]
    exact h
  · rw [e] at hqs' ⊢
    have hlive : ∀ p ∈ k.live, p ≠ q := by
      rintro p hpl rfl
      exact hq.1 hpl
    have hl' : k'.live = k.live := by rw [hk']
    have hc' : k'.current = k.current := by rw [hk']
    have htm : k'.timer = k.timer := by rw [hk']
    have hpc : ∀ p, p ≠ q → k'.pc p = k.pc p := fun p hp => by
      rw [hk']
      exact Function.update_of_ne hp _ _
    refine ⟨⟨qs, hqs'⟩, ⟨ts, ?_, fun t htm' => ?_⟩, ?_, fun _ => ?_,
      fun p hpl => ?_, fun s => ?_, fun p r hpr => ?_⟩
    · have h₁ : Timed { k with
          procs := k'.procs
          task := k'.task
          pc := k'.pc } ts :=
        ⟨hts.ring, hts.times, hts.first, hts.bound, hts.inited, hts.unlinked, hts.onTime⟩
      refine h₁.same ⟨Procs.SameTable.refl _, ?_, ?_, ?_, rfl, ?_, ?_, fun x hx _ => ?_,
        fun x hx _ => ?_⟩
      all_goals rw [hk']
      all_goals simp [listInit, hx q]
    · rw [htm, Ready, hl', hrn _ (hlive _ (hrd t htm').1)]
      exact hrd t htm'
    · rw [hc', hl']
      exact h.rest.current
    · rw [hc', hrn _ (hlive _ h.rest.current)]
      exact hrun
    · rw [hl'] at hpl
      have hpq := hlive p hpl
      obtain ⟨h1, h2, h3, h4, h5⟩ := h.rest.here p hpl
      have hat : ∀ c, k'.At p c ↔ k.At p c := fun c => by rw [At, hpc p hpq, At]
      refine ⟨fun e => ?_, fun pid ha => ?_, fun hz => ?_, fun s hs => ?_, fun t ha => ?_⟩
      · rw [hrn p hpq, hpc p hpq]
        exact h1 (e.trans hidle)
      · have ha := (hat _).1 ha
        have hpc : p ≠ k.current := fun e => hr.not_at (e ▸ ha)
        rw [hfork, Function.update_of_ne hpc]
        exact h2 pid ha
      · rw [hrn p hpq] at hz
        exact (hat _).2 (h3 hz)
      · rw [hk'] at hs
        exact (hat _).2 (h4 s hs)
      · rw [htm, show k'.inited = k.inited by rw [hk']]
        exact h5 t ((hat _).1 ha)
    · rw [show k'.waiters = k.waiters by rw [hk'], hl']
      exact h.rest.waiters s
    · rw [hfork, Function.update_apply] at hpr
      split at hpr
      · obtain rfl := Option.some.inj hpr
        refine ⟨hst, ?_⟩
        rw [hk']
        exact Function.update_self ..
      · rw [hrn r fun e => ?_, hpc r fun e => ?_]
        · exact h.rest.children p r hpr
        all_goals
          obtain ⟨F, hF, hsub, -⟩ := f.bound
          exact hq.2 p (hsub ((hF p).2 (by rw [hpr]; simp))) (e ▸ hpr)

theorem Inv.forkBegin (h : Inv k) (hr : k.Running) (hf : k.procs.forking k.current = none)
    (hq : (⟨k.procs, k.live⟩ : ProcSys P).Fresh q) : Inv (k.doForkBegin q) := by
  refine ⟨?_, h.core.forkBegin h.table.forks hr hq⟩
  have hrun := h.rest.running fun c e => by rw [hr] at e; cases e
  obtain ⟨w', hw', ht⟩ := h.tableStep (.forkBegin k.current q)
    ⟨⟨h.rest.current, hrun, hf⟩, hq⟩
  simp only [ProcSys.step, Option.some.injEq] at hw'
  subst hw'
  rcases doForkBegin_cases k q with e | ⟨k', e, hp, -, -, -, -, hk'⟩
  · rw [e]
    exact h.table
  · have hl' : k'.live = k.live := by rw [hk']
    rw [e, hp, hl']
    exact ht

theorem Inv.forkFail (h : Inv k) (hf : k.procs.forking k.current ≠ none) :
    Inv k.doForkFail := by
  obtain ⟨qs, hqs⟩ := h.queue
  obtain ⟨ts, hts, hrd⟩ := h.timers
  obtain ⟨w', hw', ht⟩ := h.tableStep (.forkFail k.current) hf
  simp only [ProcSys.step, Option.some.injEq] at hw'
  subst hw'
  have hfork : ∀ p r, k.doForkFail.procs.forking p = some r → k.procs.forking p = some r :=
    fun p r hpr => by
      change Function.update k.procs.forking k.current none p = some r at hpr
      rw [Function.update_apply] at hpr
      split at hpr
      · cases hpr
      · exact hpr
  refine ⟨ht, ⟨qs, hqs.congr (fun _ _ => ⟨rfl, rfl⟩) (fun _ => Iff.rfl) (fun _ _ => rfl)
    (fun p hp => hp.imp_right (Exists.imp fun c => hfork c p)) rfl rfl rfl le_rfl⟩,
    ⟨ts, ⟨hts.ring, hts.times, hts.first, hts.bound, hts.inited, hts.unlinked, hts.onTime⟩, hrd⟩,
    h.rest.current, h.rest.running, fun p hp => ?_, h.rest.waiters,
    fun p r hpr => h.rest.children p r (hfork p r hpr)⟩
  obtain ⟨h1, h2, h3, h4, h5⟩ := h.rest.here p hp
  refine ⟨h1, fun pid ha => ?_, h3, h4, h5⟩
  change Function.update k.procs.forking k.current none p = none
  rw [Function.update_apply]
  split
  · rfl
  · exact h2 pid ha

/-- The second half of `do_fork`: the child joins the table and the run queue. -/
theorem Queued.forkEnd {qs : List P} (h : Queued k k.current qs) (t : k.procs.Tree k.live)
    (hf : k.procs.forking k.current = some q) (hp : (k.procs.pcb q).parent = some k.current)
    (hst : (k.run q).state = .uninit) (hq : q ∉ k.live)
    (hfew : (k.live.card : ℤ) + 1 ≤ 2 * maxProcess - 2) :
    ∃ k' pid qs', k.doForkEnd = .ok k' ∧ k.procs.doForkEnd k.current = some (pid, k'.procs) ∧
      k'.current = k.current ∧ Same { k with procs := k'.procs, live := insert q k.live } k' ∧
      k'.procs.idleproc = k.procs.idleproc ∧
      k'.procs.forking = Function.update k.procs.forking k.current none ∧
      (k'.run q).state = .runnable ∧ (∀ p, p ≠ q → k'.run p = k.run p) ∧
      Queued k' k'.current qs' := by
  have hmax : maxProcess = 4096 := rfl
  obtain ⟨pid, safe, hpid, -⟩ := t.getPid_spec (by rw [maxPid]; omega)
  obtain ⟨s₁, hs₁⟩ :
      ∃ s₁, s₁ = (({ k.procs with lastPid := pid, nextSafe := safe } : Procs P).setPid
    q pid).hashProc q := ⟨_, rfl⟩
  have hp₁ : (s₁.pcb q).parent = some k.current := by simpa [hs₁, Procs.hashProc] using hp
  obtain ⟨s₂, hs₂, ⟨-, -, -, -, hidle, -, hfork⟩, hpcb₂⟩ := Procs.setLinks_spec hp₁
  have hrun₂ : ∀ p, (s₂.pcb p).run = k.run p := fun p => by
    rw [hpcb₂]
    simp [hs₁, Procs.hashProc, run]
  have hidle₂ : s₂.idleproc = k.procs.idleproc := by
    rw [hidle, hs₁]
    rfl
  have hfork₂ : s₂.forking = k.procs.forking := by
    rw [hfork, hs₁]
    rfl
  obtain ⟨k₁, hk₁⟩ : ∃ k₁, k₁ = { k with procs := s₂, live := insert q k.live } := ⟨_, rfl⟩
  have hrun₁ : ∀ p, k₁.run p = k.run p := fun p => by
    rw [hk₁]
    exact hrun₂ p
  have hq₁ : Queued k₁ k₁.current qs := by
    rw [hk₁]
    refine ⟨h.ring, fun p => ?_, h.queued, fun p hpl hpq => ?_, h.num, h.fifo, ?_⟩
    · change p ∈ qs ↔ p ∈ insert q k.live ∧ (s₂.pcb p).run.state = .runnable ∧ p ≠ k.current ∧
        p ≠ s₂.idleproc
      rw [h.mem, hrun₂, hidle₂, Finset.mem_insert]
      constructor
      · rintro ⟨h1, h2⟩
        exact ⟨.inr h1, h2⟩
      · rintro ⟨rfl | h1, h2⟩
        · rw [hst] at h2
          cases h2.1
        · exact ⟨h1, h2⟩
    · refine h.unlinked p ?_ hpq
      change p ∈ insert q k.live ∨ (∃ c, s₂.forking c = some p) at hpl
      rw [Finset.mem_insert, hfork₂] at hpl
      rcases hpl with (rfl | hpl) | hpl
      · exact .inr ⟨_, hf⟩
      · exact .inl hpl
      · exact .inr hpl
    · change ((insert q k.live).card : ℤ) ≤ _
      rw [Finset.card_insert_of_notMem hq]
      push_cast
      exact hfew
  have hqz : (k₁.run q).state ≠ .zombie := by
    rw [hrun₁, hst]
    simp
  have hql : q ∈ k₁.live := by
    rw [hk₁]
    exact Finset.mem_insert_self _ _
  obtain ⟨k₂, qs', hk₂, hprocs₂, hcur₂, hsame₂, hqs'⟩ := hq₁.wakeup hql hqz
  have hpw : s₂.wakeupProc q = some k₂.procs := by
    have := procs_wakeupProc hqz
    rw [← hprocs₂] at this
    rw [← this, hk₁]
  have hidle₃ : k₂.procs.idleproc = k.procs.idleproc := by
    rw [hprocs₂, hk₁]
    exact hidle₂
  have hfork₃ : k₂.procs.forking = k.procs.forking := by
    rw [hprocs₂, hk₁]
    exact hfork₂
  have hrun₃ : ∀ p, k₂.run p = if p = q then woken (k.run q) else k.run p := fun p => by
    rw [run, hprocs₂, Procs.pcb_setRun, hrun₁, ← hrun₁ p]
    rfl
  obtain ⟨k', hk'⟩ : ∃ k', k' = { k₂ with procs :=
      { k₂.procs with forking := Function.update k₂.procs.forking k₂.current none } } := ⟨_, rfl⟩
  have hc₂ : k₂.current = k.current := by
    rw [hcur₂, hk₁]
  have hcur : k'.current = k.current := by
    rw [hk']
    exact hc₂
  have hfork' : k'.procs.forking = Function.update k.procs.forking k.current none := by
    rw [← hfork₃, ← hcur, hk']
  refine ⟨k', (s₂.pcb q).pid, qs', ?_, ?_, hcur, ?_, by rw [hk']; exact hidle₃, hfork', ?_,
    fun p hpq => ?_, ?_⟩
  · unfold Sched.doForkEnd
    simp only [hf, hpid, orPanic, bind, Except.bind, ← hs₁, hs₂, ← hk₁, hk₂, hk']
  · have hpid₃ : (k₂.procs.pcb q).pid = (s₂.pcb q).pid := by
      rw [hprocs₂, hk₁, Procs.pcb_setRun]
    simp only [Procs.doForkEnd, hf, hpid, Option.bind_eq_bind, Option.bind_some, ← hs₁, hs₂, hpw,
      hpid₃, hk', hc₂]
  · have hb : Same { k₁ with procs := k'.procs } k' := by
      rw [hk']
      exact ⟨Procs.SameTable.refl _, hsame₂.live, hsame₂.timer, hsame₂.waiters, hsame₂.pc,
        hsame₂.inited, hsame₂.events, hsame₂.next, hsame₂.prev⟩
    rw [hk₁] at hb
    exact hb
  · rw [hk']
    change (k₂.run q).state = _
    rw [hrun₃, if_pos rfl, woken_state]
  · rw [hk']
    change k₂.run p = _
    rw [hrun₃, if_neg hpq]
  · rw [hk']
    refine hqs'.congr (fun _ _ => ⟨rfl, rfl⟩) (fun _ => Iff.rfl) (fun _ _ => rfl)
      (fun p hpl => hpl.imp_right (Exists.imp fun c hc => ?_)) rfl rfl rfl le_rfl
    change Function.update k₂.procs.forking k₂.current none c = some p at hc
    rw [Function.update_apply] at hc
    split at hc
    · cases hc
    · exact hc

theorem Core.forkEnd (h : Core k) (t : k.procs.Tree k.live) (f : ProcSys.Forks k.procs k.live)
    (hr : k.Running) (hq : k.procs.forking k.current = some q) :
    ∃ k' pid, k.doForkEnd = .ok k' ∧ k.procs.doForkEnd k.current = some (pid, k'.procs) ∧
      k'.live = insert q k.live ∧ Core k' := by
  obtain ⟨qs, hqs⟩ := h.queue
  obtain ⟨ts, hts, hrd⟩ := h.timers
  obtain ⟨hql, hqp, -⟩ := f.child _ _ hq
  obtain ⟨hst, hpc⟩ := h.rest.children _ _ hq
  have hrun := h.rest.running fun c e => by rw [hr] at e; cases e
  have hfew : (k.live.card : ℤ) + 1 ≤ 2 * maxProcess - 2 := by
    obtain ⟨F, hF, -, hb⟩ := f.bound
    have h1 : k.procs.nrProcess = (k.live.card : ℤ) := t.count
    have h2 := Finset.card_pos.2 ⟨k.current, (hF k.current).2 (by simp [hq])⟩
    change k.procs.nrProcess + _ ≤ _ at hb
    omega
  obtain ⟨k', pid, qs', hk', hp, hcur, hs, hidle, hfork, hrq, hrn, hqs'⟩ :=
    hqs.forkEnd t hq hqp hst hql hfew
  have hlive : k'.live = insert q k.live := hs.live
  have hne : ∀ p ∈ k.live, p ≠ q := by
    rintro p hpl rfl
    exact hql hpl
  have hat : ∀ p c, k'.At p c ↔ k.At p c := fun p c => by
    rw [At, hs.pc, At]
  have hts₁ : Timed { k with procs := k'.procs, live := insert q k.live } ts :=
    ⟨hts.ring, hts.times, hts.first, hts.bound, hts.inited, hts.unlinked, hts.onTime⟩
  have htm : k'.timer = k.timer := hs.timer
  have hw : k'.waiters = k.waiters := hs.waiters
  have hin : k'.inited = k.inited := hs.inited
  refine ⟨k', pid, hk', hp, hlive, ⟨qs', hqs'⟩, ⟨ts, hts₁.same hs, fun u htm' => ?_⟩,
    ⟨?_, fun _ => ?_, fun p hpl => ?_, fun s => ?_, fun p r hpr => ?_⟩⟩
  · obtain ⟨h1, h2⟩ := hrd u htm'
    rw [htm, Ready, hlive, hrn _ (hne _ h1)]
    exact ⟨Finset.mem_insert_of_mem h1, h2⟩
  · rw [hcur, hlive]
    exact Finset.mem_insert_of_mem h.rest.current
  · rw [hcur, hrn _ (hne _ h.rest.current), hrun]
  · rw [hlive, Finset.mem_insert] at hpl
    rcases hpl with rfl | hpl
    · have hna : ∀ c, ¬k'.At p c := fun c ha => by
        rw [hat, At, hpc] at ha
        rcases ha with e | e <;> cases e
      refine ⟨fun e => ?_, fun pid ha => absurd ha (hna _), fun hz => ?_, fun s hs' => ?_,
        fun _ ha => absurd ha (hna _)⟩
      · exact absurd (t.idle) (hidle ▸ e ▸ hql)
      · rw [hrq] at hz
        cases hz
      · rw [hw] at hs'
        exact absurd ((h.rest.waiters s).2 p hs') hql
    · obtain ⟨h1, h2, h3, h4, h5⟩ := h.rest.here p hpl
      refine ⟨fun e => ?_, fun pid ha => ?_, fun hz => ?_, fun s hs' => ?_, fun u ha => ?_⟩
      · rw [hrn p (hne p hpl), hs.pc]
        exact h1 (e.trans hidle)
      · have ha := (hat _ _).1 ha
        have hpc : p ≠ k.current := fun e => hr.not_at (e ▸ ha)
        rw [hfork, Function.update_of_ne hpc]
        exact h2 pid ha
      · rw [hrn p (hne p hpl)] at hz
        exact (hat _ _).2 (h3 hz)
      · rw [hw] at hs'
        exact (hat _ _).2 (h4 s hs')
      · rw [htm, hin]
        exact h5 u ((hat _ _).1 ha)
  · obtain ⟨h1, h2⟩ := h.rest.waiters s
    rw [hw, hlive]
    exact ⟨h1, fun p hp => Finset.mem_insert_of_mem (h2 p hp)⟩
  · rw [hfork, Function.update_apply] at hpr
    split at hpr
    · cases hpr
    · rename_i hpc
      rw [hrn r fun e => ?_, hs.pc]
      · exact h.rest.children p r hpr
      · obtain ⟨-, -, -, -, -, huniq⟩ := f.child _ _ hq
        exact hpc (huniq p (e ▸ hpr))

theorem Inv.forkEnd (h : Inv k) (hr : k.Running) (hf : k.procs.forking k.current ≠ none) :
    ∃ k', k.doForkEnd = .ok k' ∧ Inv k' := by
  obtain ⟨q, hq⟩ := Option.ne_none_iff_exists'.1 hf
  obtain ⟨k', pid, hk', hp, hlive, hc⟩ := h.core.forkEnd h.table.tree h.table.forks hr hq
  obtain ⟨w', hw', ht⟩ := h.tableStep (.forkEnd k.current) hf
  simp only [ProcSys.step, hq, hp, Option.bind_eq_bind, Option.bind_some, Option.some.injEq] at hw'
  subst hw'
  exact ⟨k', hk', by rw [hlive]; exact ht, hc⟩

/-! ## The start -/

theorem core_bootIdle (mem : Sched S P T) (pcb : P → Pcb P) (idle : P) :
    Core (mem.bootIdle pcb idle) := by
  obtain ⟨g, hrun, -, -, -, -, -, hs⟩ := ProcSys.procInitIdle_spec mem.procs.links pcb idle
  obtain ⟨k, hk⟩ : ∃ k, k = mem.bootIdle pcb idle := ⟨_, rfl⟩
  have hprocs : k.procs = Procs.procInitIdle mem.procs.links pcb idle := by rw [hk]; rfl
  have hlive : k.live = {idle} := by rw [hk]; rfl
  have hcur : k.current = idle := by rw [hk]; rfl
  have hpc : ∀ p, k.pc p = .run := fun p => by rw [hk]; rfl
  have hst : (k.run idle).state = .runnable := by
    rw [run, hprocs, hs]
    change (Function.update pcb idle g idle).run.state = _
    rw [Function.update_self, hrun]
  have hidle : k.procs.idleproc = idle := by rw [hprocs, hs]
  have hfork : ∀ p, k.procs.forking p = none := fun p => by rw [hprocs, hs]
  have hlinks : k.links = listInit (listInit (listInit mem.links .timerList) .runList)
      (.runLink idle) := by rw [hk]; rfl
  have hna : ∀ p c, ¬k.At p c := fun p c ha => by
    rw [At, hpc] at ha
    rcases ha with e | e <;> cases e
  have hring : Circ k.links .runList [] := by
    rw [hlinks]
    refine (circ_listInit (listInit mem.links .timerList) .runList).congr (fun x hx => ?_)
      fun x hx => ?_
    all_goals
      obtain rfl := List.mem_singleton.1 hx
      simp [listInit]
  have htimers : Circ k.links .timerList [] := by
    rw [hlinks]
    refine (circ_listInit mem.links .timerList).congr (fun x hx => ?_) fun x hx => ?_
    all_goals
      obtain rfl := List.mem_singleton.1 hx
      simp [listInit]
  have hq : Queued k k.current [] := by
    refine ⟨hring, fun p => ?_, fun p hp => ?_, fun p hp _ => ?_, by rw [hk]; rfl,
      by rw [hk]; rfl, ?_⟩
    · rw [hlive, Finset.mem_singleton, hidle]
      simp only [List.not_mem_nil, false_iff, not_and, not_not]
      exact fun e _ _ => e
    · cases hp
    · rcases hp with hp | ⟨c, hc⟩
      · rw [hlive, Finset.mem_singleton] at hp
        simp [hlinks, hp, listEmpty, listInit]
      · rw [hfork] at hc
        cases hc
    · rw [hlive, Finset.card_singleton]
      decide
  have ht : Timed k [] := by
    have hin : k.inited = fun _ => false := by rw [hk]; rfl
    have hev : k.events = [] := by rw [hk]; rfl
    refine ⟨htimers, fun t => ?_, fun t ht => ?_, ?_, fun t ht => ?_, fun t ht _ => ?_, ?_⟩
    · rw [hev]
      rfl
    · cases ht
    · show span _ [] < _
      simp [span]
    · cases ht
    · rw [hin] at ht
      cases ht
    · rw [hev]
      trivial
  rw [← hk]
  refine ⟨⟨[], hq⟩, ⟨[], ht, fun t ht => by cases ht⟩, ?_, fun _ => hcur.symm ▸ hst, fun p hp => ?_,
    fun s => ?_, fun p q hq => ?_⟩
  · rw [hcur, hlive]
    exact Finset.mem_singleton_self _
  · rw [hlive, Finset.mem_singleton] at hp
    subst hp
    refine ⟨fun _ => ⟨hst, .inl (hpc p)⟩, fun _ ha => absurd ha (hna _ _), fun hz => ?_,
      fun s hs => ?_, fun _ ha => absurd ha (hna _ _)⟩
    · rw [hst] at hz
      cases hz
    · rw [hk] at hs
      cases hs
  · rw [hk]
    exact ⟨List.nodup_nil, fun p hp => by cases hp⟩
  · rw [hfork] at hq
    cases hq

/-- **The start.** -/
theorem inv_boot {mem : Sched S P T} {pcb : P → Pcb P} {idle proc : P} (hne : idle ≠ proc)
    (h : boot mem pcb idle proc = .ok k) : Inv k := by
  obtain ⟨k₀, hk₀⟩ : ∃ k₀, k₀ = mem.bootIdle pcb idle := ⟨_, rfl⟩
  have hc₀ : Core k₀ := hk₀ ▸ core_bootIdle mem pcb idle
  have hprocs₀ : k₀.procs = Procs.procInitIdle mem.procs.links pcb idle := by rw [hk₀]; rfl
  have hlive₀ : k₀.live = {idle} := by rw [hk₀]; rfl
  have hcur₀ : k₀.current = idle := by rw [hk₀]; rfl
  have hfork₀ : ∀ p, k₀.procs.forking p = none := fun p => by rw [hprocs₀]; rfl
  have t₀ : k₀.procs.Tree k₀.live := by
    rw [hprocs₀, hlive₀]
    exact ProcSys.tree_procInitIdle _ _ _
  have f₀ : ProcSys.Forks k₀.procs k₀.live := by
    rw [hprocs₀, hlive₀]
    exact ProcSys.forks_procInitIdle _ _ _
  have hq : proc ∉ k₀.live := by
    rw [hlive₀, Finset.mem_singleton]
    exact hne.symm
  have hc₁ := hc₀.forkBegin f₀ (by rw [hk₀]; rfl) (q := proc)
    ⟨hq, fun p _ e => by rw [hfork₀] at e; cases e⟩
  have t₁ : (k₀.procs.doForkBegin idle proc).1.Tree k₀.live := ProcSys.tree_forkBegin t₀ hq
  have f₁ : ProcSys.Forks (k₀.procs.doForkBegin idle proc).1 k₀.live :=
    ProcSys.forks_forkBegin t₀ f₀ (by rw [hlive₀]; simp)
    (by
      have := t₀.idleAlive
      rwa [show k₀.procs.idleproc = idle by rw [hprocs₀]; rfl] at this)
    (hfork₀ _) hq fun p e => by rw [hfork₀] at e; cases e
  have hbegin : k₀.procs.doForkBegin idle proc = ((k₀.procs.doForkBegin idle proc).1, true) ∧
      (k₀.procs.doForkBegin idle proc).1.forking idle = some proc := by
    have hnr : ¬ k₀.procs.nrProcess ≥ maxProcess := by
      rw [hprocs₀]
      show ¬ (0 : ℤ) + 1 ≥ maxProcess
      decide
    simp [Procs.doForkBegin, hnr]
  obtain ⟨k₁, hk₁⟩ : ∃ k₁, k₁ = k₀.doForkBegin proc := ⟨_, rfl⟩
  have hk₁' : k₁.procs = (k₀.procs.doForkBegin idle proc).1 ∧ k₁.live = k₀.live ∧
      k₁.current = idle ∧ k₁.pc idle = .run := by
    rw [hk₁]
    unfold Sched.doForkBegin
    rw [hcur₀, hbegin.1]
    refine ⟨rfl, rfl, rfl, ?_⟩
    change Function.update k₀.pc proc .run idle = .run
    rw [Function.update_of_ne hne, hk₀]
    rfl
  obtain ⟨h1, h2, h3, h4⟩ := hk₁'
  rw [← h1, ← h2] at t₁ f₁
  rw [← hk₁] at hc₁
  have hf₁ : k₁.procs.forking k₁.current = some proc := by rw [h3, h1, hbegin.2]
  obtain ⟨k₂, pid, hk₂, hp₂, hl₂, hc₂⟩ := hc₁.forkEnd t₁ f₁ (q := proc)
    (by rw [Running, h3, h4]) hf₁
  have hpid : (k₂.procs.pcb proc).pid = pid := by
    obtain ⟨pid', s', hs', -, -, -, -, hpid, -⟩ := ProcSys.forkEnd_spec t₁ f₁ hf₁
    rw [hp₂, Option.some.injEq, Prod.mk.injEq] at hs'
    rw [hs'.1, ← hpid, hs'.2]
  simp only [boot, ← hk₀, ← hk₁, hk₂, bind, Except.bind, hpid] at h
  cases hfind : k₂.procs.findProc pid with
  | none =>
    rw [hfind] at h
    cases h
  | some o =>
    rw [hfind] at h
    cases o with
    | none => cases h
    | some p =>
      simp only [orPanic] at h
      split_ifs at h with hids
      cases h
      obtain ⟨⟨qs, hqs⟩, ⟨ts, hts, hrd⟩, hr⟩ := hc₂
      refine ⟨?_, ⟨qs, hqs.congr (fun _ _ => ⟨rfl, rfl⟩) (fun _ => Iff.rfl) (fun _ _ => rfl)
        (fun _ h => h) rfl rfl rfl le_rfl⟩, ⟨ts, ⟨hts.ring, hts.times, hts.first, hts.bound,
          hts.inited, hts.unlinked, hts.onTime⟩, hrd⟩, hr.current, hr.running, fun p hp => ?_,
        hr.waiters, hr.children⟩
      · refine ProcSys.inv_init ⟨mem.procs.links, pcb, idle, proc, hne, ?_, ?_⟩
        · rw [h3] at hp₂
          unfold Procs.procInit
          rw [← hprocs₀, hbegin.1, ← h1]
          simp only [hp₂, hfind, Option.bind_eq_bind, Option.bind_some, Bool.not_true,
            Bool.false_eq_true, if_false, if_pos hids]
        · rw [hl₂, h2, hlive₀]
      · obtain ⟨g1, g2, g3, g4, g5⟩ := hr.here p hp
        exact ⟨g1, g2, g3, g4, g5⟩

/-! ## Runs -/

/-- **One step.** -/
theorem Inv.step (h : Inv k) (hl : k.Legal op) : Safe (k.step op) Inv := by
  cases op with
  | tick =>
    obtain ⟨k', fired, hk', hi, -⟩ := h.tick
    exact Safe.of_eq hk' hi
  | wakeup p => exact h.wakeupProc hl
  | schedule =>
    obtain ⟨k', hk', hi⟩ := h.callSchedule hl
    exact Safe.of_eq hk' hi
  | resume => exact h.resume hl
  | yield => exact Safe.ok (h.setTask (fun g => { g with needResched := true }) fun _ => rfl)
  | forkBegin q => exact Safe.ok (h.forkBegin hl.1 hl.2.1 hl.2.2)
  | forkFail => exact Safe.ok (h.forkFail hl.2)
  | forkEnd =>
    obtain ⟨k', hk', hi⟩ := h.forkEnd hl.1 hl.2
    exact Safe.of_eq hk' hi
  | exit code =>
    obtain ⟨hr, hf, hq⟩ := hl
    exact h.doExit (h.rest.running fun c e => by rw [hr] at e; cases e) hf hq
      (fun _ => hr.not_at) (h.notWaiting hr) code
  | wait pid =>
    obtain ⟨hr, hf, hi⟩ := hl
    exact h.doWait (fun c e => by rw [hr] at e; cases e) hf hi (fun _ => hr.not_at)
      (h.notWaiting hr) pid
  | sleep t n =>
    obtain ⟨hr, hi, hn, hf⟩ := hl
    obtain ⟨k', hk', hi⟩ := h.sleep hr hi hn hf
    exact Safe.of_eq hk' hi
  | kill pid => exact h.kill pid
  | semInit s v =>
    have h₁ := h.setWaiters (s := s) [] List.nodup_nil fun p hp => absurd hp (by simp)
    exact Safe.ok (h₁.congr k.task (Function.update k.value s v) k.wakeupFlags fun _ => rfl)
  | up s => exact h.up s
  | down s => exact Safe.ok (h.down hl s)
  | tryDown s =>
    unfold Sched.step
    dsimp only
    split
    · exact Safe.ok (h.congr k.task _ k.wakeupFlags fun _ => rfl)
    · exact Safe.ok h
  | block ws => exact Safe.ok (h.block hl)
  | addTimer t p n =>
    obtain ⟨-, h0, hn, hf, hrd⟩ := hl
    obtain ⟨k', hk', hi, -⟩ := h.startTimer n h0 hn hf hrd
    exact Safe.of_eq hk' hi
  | delTimer t => exact Safe.ok (h.delTimer hl.2).1

theorem reach_inv (h : (machine S P T).Reach k) : Inv k := by
  refine h.preserved (fun _ ⟨_, _, _, _, hne, hb⟩ => inv_boot hne hb) fun k op k' hi hl hs => ?_
  have hstep := hi.step hl
  change (k.step op).toOption = some k' at hs
  cases hx : k.step op with
  | error e =>
    rw [hx] at hs
    cases hs
  | ok a =>
    rw [hx] at hs hstep
    cases hs
    exact hstep

/-! ## The run queue -/

instance (k : Sched S P T) (p : P) (c : Cont S T) : Decidable (k.At p c) :=
  inferInstanceAs (Decidable (_ ∨ _))

instance (k : Sched S P T) (t : T) : Decidable (k.Linked t) := inferInstanceAs (Decidable (_ ∧ _))

instance (k : Sched S P T) (t : T) : Decidable (k.Slept t) :=
  inferInstanceAs (Decidable (∃ p ∈ k.live, _))

instance (k : Sched S P T) (t : T) : Decidable (k.Free t) := inferInstanceAs (Decidable (_ ∧ _))

instance (k : Sched S P T) (p : P) : Decidable (k.Quiet p) :=
  inferInstanceAs (Decidable (∀ t, k.Linked t → _))

instance (k : Sched S P T) (p : P) : Decidable (k.Ready p) :=
  inferInstanceAs (Decidable (_ ∧ _ ∧ _))

instance (k : Sched S P T) : Decidable k.Running := inferInstanceAs (Decidable (_ = _))

instance (k : Sched S P T) (ws : BitVec 32) : Decidable (k.MayBlock ws) :=
  inferInstanceAs (Decidable (_ ∧ _ ∧ _))

instance (k : Sched S P T) : ∀ op, Decidable (k.Legal op)
  | .tick => inferInstanceAs (Decidable True)
  | .wakeup _ => inferInstanceAs (Decidable (_ ∈ _))
  | .schedule => by
    unfold Legal
    cases k.pc k.current <;> infer_instance
  | .resume => by
    unfold Legal
    rcases k.pc k.current with _ | _ | c
    · infer_instance
    · infer_instance
    · cases c <;> infer_instance
  | .yield | .kill _ | .up _ | .tryDown _ => inferInstanceAs (Decidable k.Running)
  | .forkBegin _ => inferInstanceAs (Decidable (_ ∧ _ ∧ _))
  | .forkFail | .forkEnd => inferInstanceAs (Decidable (_ ∧ _))
  | .exit _ | .wait _ => inferInstanceAs (Decidable (_ ∧ _ ∧ _))
  | .sleep _ _ => inferInstanceAs (Decidable (_ ∧ _ ∧ _ ∧ _))
  | .semInit _ _ => inferInstanceAs (Decidable (_ ∧ _))
  | .down _ | .block _ => inferInstanceAs (Decidable (k.MayBlock _))
  | .addTimer _ _ _ => inferInstanceAs (Decidable (_ ∧ _ ∧ _ ∧ _ ∧ _))
  | .delTimer _ => inferInstanceAs (Decidable (_ ∧ _))

instance (k : Sched S P T) (op : SchedOp S P T) : Decidable ((machine S P T).Legal k op) :=
  inferInstanceAs (Decidable (k.Legal op))

/-- **The run queue agrees** with the states of processes in every state reached: it holds each
    process that could run but the current one and `idleproc` once, what went in comes out in
    order, and no assertion of `RR_enqueue` or `RR_dequeue` can fail. -/
theorem run_queue_agrees (h : (machine S P T).Reach k) :
    (∃ q : List P, Circ k.links .runList (q.map .runLink) ∧ q.Nodup ∧
      (∀ p, p ∈ q ↔ p ∈ k.live ∧ (k.run p).state = .runnable ∧ p ≠ k.current ∧
        p ≠ k.procs.idleproc) ∧
      k.procNum = q.length ∧ k.enqueued = k.dequeued ++ q) ∧
    ∀ op, k.Legal op → k.step op ≠ .error .rrEnqueue ∧ k.step op ≠ .error .rrDequeue := by
  have hi := reach_inv h
  obtain ⟨q, hq⟩ := hi.queue
  refine ⟨⟨q, hq.ring, hq.nodup, hq.mem, hq.num, hq.fifo⟩, fun op hl => ?_⟩
  have hs := hi.step hl
  constructor
  all_goals
    intro e
    rw [e] at hs
    cases hs

theorem reach_boot {mem : Sched S P T} {pcb : P → Pcb P} {idle proc : P} (hne : idle ≠ proc)
    (h : (boot mem pcb idle proc).toOption = some k) : (machine S P T).Reach k := by
  refine .init ⟨mem, pcb, idle, proc, hne, ?_⟩
  cases hb : boot mem pcb idle proc with
  | error e =>
    rw [hb] at h
    cases h
  | ok k' =>
    rw [hb] at h
    cases h
    rfl

/-- A kernel with two timers and one semaphore that has just been loaded. -/
def loaded : Sched Unit ℕ (Fin 2) where
  procs := ⟨⟨id, id⟩, fun _ => ⟨⟨.uninit, 0⟩, 0, none, 0, none, none, none⟩, 0, 0, 0, 0, none,
    fun _ => none⟩
  live := ∅
  links := ⟨id, id⟩
  procNum := 0
  task := fun _ => ⟨false, 0, false, 0, false⟩
  timer := fun _ => ⟨0, 0⟩
  value := fun _ => 0
  waiters := fun _ => []
  wakeupFlags := fun _ => 0
  current := 0
  pc := fun _ => .run
  inited := fun _ => false
  enqueued := []
  dequeued := []
  events := []

/-- `initproc` (1) forks 2 and goes to sleep, and is woken before it calls `schedule()`. -/
theorem run_queue_agrees_wakeup : ∃ k, (machine Unit ℕ (Fin 2)).Reach k ∧ k.current = 2 ∧
    k.enqueued = [1, 2, 1] ∧ k.dequeued = [1, 2] ∧ k.procNum = 1 ∧
    ∃ q : List ℕ, q.Nodup ∧ k.enqueued = k.dequeued ++ q := by
  have h : ((boot loaded (fun _ => ⟨⟨.uninit, 0⟩, 0, none, 0, none, none, none⟩) 0 1).toOption.bind
      fun k => ((machine Unit ℕ (Fin 2)).run k [.schedule, .forkBegin 2, .forkEnd, .sleep 0 3,
        .wakeup 1, .schedule]).bind fun k =>
      if k.current = 2 ∧ k.enqueued = [1, 2, 1] ∧ k.dequeued = [1, 2] ∧ k.procNum = 1 then some ()
      else none) = some () := by decide +kernel
  obtain ⟨k₀, hk₀, h⟩ := Option.bind_eq_some_iff.1 h
  obtain ⟨k, hk, h⟩ := Option.bind_eq_some_iff.1 h
  split_ifs at h with hc
  obtain ⟨h1, h2, h3, h4⟩ := hc
  have hr := reach_boot (by decide) hk₀
  obtain ⟨⟨q, -, hnd, -, -, hf⟩, -⟩ := run_queue_agrees (hr.run hk)
  exact ⟨k, hr.run hk, h1, h2, h3, h4, q, hnd, hf⟩

/-! ## The timers -/

/-- **Timers fire on time.**  In every state reached, the list represents the pending timers; a
    timer added for `n` ticks and not touched since has fired at the `n`-th tick and no other, and a
    deleted one has not fired; a tick does not fail, fires what is due and wakes its processes,
    which timers keep; and when `do_sleep` returns its timer is not linked. -/
theorem timers_on_time (h : (machine S P T).Reach k) :
    (∃ ts, k.Ring ts ∧ ts.Nodup ∧ ∀ t, due k.expires ts t = pending k.events t) ∧
    (∀ pre mid post t n fired, k.events = post ++ .tick fired :: (mid ++ .add t n :: pre) → 0 < n →
      Untouched t mid → (t ∈ fired ↔ ticks mid + 1 = n)) ∧
    (∀ pre mid post t fired, k.events = post ++ .tick fired :: (mid ++ .del t :: pre) →
      Untouched t mid → t ∉ fired) ∧
    (∃ k' fired, k.step .tick = .ok k' ∧ k'.events = .tick fired :: k.events ∧ fired.Nodup ∧
      ∀ t, (t ∈ fired ↔ pending k.events t = some 1) ∧
        (t ∈ fired → (k'.run (k.timer t).proc).state = .runnable)) ∧
    (∀ t p n, k.Legal (.addTimer t p n) → ∃ k', k.step (.addTimer t p n) = .ok k' ∧
      k'.events = .add t n :: k.events ∧ (k'.timer t).proc = p) ∧
    (∀ op k' t, k.Legal op → k.step op = .ok k' → k.Linked t →
      (k'.timer t).proc = (k.timer t).proc) ∧
    ∀ t, k.pc k.current = .inside (.sleep t) → ∃ k', k.step .resume = .ok k' ∧
      k'.events = .del t :: k.events ∧ ¬k'.Linked t := by
  have hi := reach_inv h
  obtain ⟨ts, hts, -⟩ := hi.timers
  refine ⟨⟨ts, hts.ring, Ring.nodup hts.ring, hts.times⟩, fun pre mid post t n fired he hn hu => ?_,
    fun pre mid post t fired he hu => ?_, ?_, fun t p n hl => ?_,
    fun op k' t hl hs ht => owner_kept hl ht hs, fun t hpc => ?_⟩
  · have ho := hts.onTime
    rw [he] at ho
    exact ho.fires hn hu
  · have ho := hts.onTime
    rw [he] at ho
    exact ho.deleted hu
  · obtain ⟨k', fired, hk', hi', hev, hf⟩ := hi.tick
    obtain ⟨ts', hts', -⟩ := hi'.timers
    have ho := hts'.onTime
    rw [hev] at ho
    exact ⟨k', fired, hk', hev, ho.2.1, fun t => ⟨ho.1 t, hf t⟩⟩
  · obtain ⟨-, h0, hn, hf, hrd⟩ := hl
    obtain ⟨k', hk', -, hev⟩ := hi.startTimer n h0 hn hf hrd
    refine ⟨k', hk', hev, ?_⟩
    have := owners_startTimer k t p n k' hk' t
    rwa [timerInit_timer] at this
  · obtain ⟨k', hk', -, he, hev⟩ := hi.resumeSleep hpc
    refine ⟨k', ?_, hev, fun hl => ?_⟩
    · unfold Sched.step
      rw [hpc]
      exact hk'
    · rw [hl.2] at he
      cases he

/-- `initproc` (1) sleeps for two ticks; the second one wakes it. -/
theorem timers_on_time_sleep : ∃ k, (machine Unit ℕ (Fin 2)).Reach k ∧ k.current = 1 ∧
    k.events = [.del 0, .tick [0], .tick [], .add 0 2] ∧
    ∃ ts, k.Ring ts ∧ ∀ t, due k.expires ts t = pending k.events t := by
  have h : ((boot loaded (fun _ => ⟨⟨.uninit, 0⟩, 0, none, 0, none, none, none⟩) 0 1).toOption.bind
      fun k => ((machine Unit ℕ (Fin 2)).run k [.schedule, .sleep 0 2, .schedule, .tick, .resume,
        .tick, .schedule, .resume]).bind fun k =>
      if k.current = 1 ∧ k.events = [.del 0, .tick [0], .tick [], .add 0 2] then some ()
      else none) = some () := by decide +kernel
  obtain ⟨k₀, hk₀, h⟩ := Option.bind_eq_some_iff.1 h
  obtain ⟨k, hk, h⟩ := Option.bind_eq_some_iff.1 h
  split_ifs at h with hc
  have hr := reach_boot (by decide) hk₀
  obtain ⟨⟨ts, hts, -, hd⟩, -⟩ := timers_on_time (hr.run hk)
  exact ⟨k, hr.run hk, hc.1, hc.2, ts, hts, hd⟩

end Sched

end Ucore
