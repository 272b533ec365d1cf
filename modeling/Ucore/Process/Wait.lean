/-
  `do_wait` and `do_kill` of `kern/process/proc.c`: waiting for children.

  A process inside `do_wait` sleeps with `WT_CHILD` between two passes over its children.  Here is
  what the steps of the process table do to sleepers and zombies:

  * `Calm`: a step leaves a process alone, or wakes it up;
  * `reparent_zombie`: a zombie handed to `initproc` does not leave it asleep;
  * `doExit_zombie`: nor does the process that exits leave its parent asleep;
  * `Tree.waitSearch_all`: when `do_wait` finds nothing, no child it waits for is a zombie.
-/
import Ucore.Process.TreeRun

namespace Ucore

open Intrusive

set_option linter.unusedSectionVars false

variable {P : Type} [DecidableEq P]

/-- `do_kill`; `flags` are the flags of the processes. -/
def Procs.doKill (s : Procs P) (flags : P → BitVec 32) (pid : ℤ) :
    Option (KillResult × Procs P × (P → BitVec 32)) := do
  match ← s.findProc pid with
  | some proc =>
    if flags proc &&& pfExiting = 0 then do
      let flags := Function.update flags proc (flags proc ||| pfExiting)
      let s ← s.wakeupProcIf ((s.pcb proc).run.waitState &&& wtInterrupted ≠ 0) proc
      some (.ok, s, flags)
    else some (.killed, s, flags)
  | none => some (.inval, s, flags)

/-- The process has exited. -/
abbrev Pcb.Zombie (g : Pcb P) : Prop := g.run.state = .zombie

/-- The process sleeps in `do_wait`. -/
abbrev Pcb.Asleep (g : Pcb P) : Prop := g.run = ⟨.sleeping, wtChild⟩

/-- The process is left alone, or woken up. -/
def Proc.Calm (g g' : Proc) : Prop :=
  g' = g ∨ g.state ≠ .zombie ∧ g' = ⟨.runnable, 0⟩

namespace Proc

variable {g g' g₁ g₂ g₃ : Proc}

theorem Calm.refl (g : Proc) : g.Calm g := Or.inl rfl

theorem Calm.trans (h : g₁.Calm g₂) (h' : g₂.Calm g₃) : g₁.Calm g₃ := by
  rcases h with rfl | ⟨hz, rfl⟩
  · exact h'
  · rcases h' with rfl | ⟨-, rfl⟩ <;> exact Or.inr ⟨hz, rfl⟩

theorem Calm.zombie (h : g.Calm g') : g'.state = .zombie ↔ g.state = .zombie := by
  rcases h with rfl | ⟨hz, rfl⟩
  · rfl
  · simp [hz]

/-- Nobody is put to sleep. -/
theorem Calm.sleeping (h : g.Calm g') (hs : g'.state = .sleeping) : g' = g := by
  rcases h with rfl | ⟨-, rfl⟩
  · rfl
  · cases hs

theorem Calm.awake (h : g.Calm g') (hg : g.state ≠ .sleeping → g.waitState = 0)
    (hs : g'.state ≠ .sleeping) : g'.waitState = 0 := by
  rcases h with rfl | ⟨-, rfl⟩
  · exact hg hs
  · rfl

theorem wakeup_calm (h : g.wakeup = some g') : g.Calm g' ∧ g'.state = .runnable := by
  simp only [wakeup] at h
  split_ifs at h with h1 h2
  · obtain rfl := Option.some.inj h
    exact ⟨Or.inr ⟨h1, rfl⟩, rfl⟩
  · obtain rfl := Option.some.inj h
    exact ⟨Or.inl rfl, not_not.1 h2⟩

end Proc

namespace Procs

variable {s s' s₁ s₂ : Procs P} {live : Finset P} {p q x cur par init : P} {k : ℕ}

theorem wakeupProc_pcb (h : s.wakeupProc p = some s') :
    SameTable s s' ∧ ∃ g, (s.pcb p).run.wakeup = some g ∧
      ∀ q, s'.pcb q = { s.pcb q with run := if q = p then g else (s.pcb q).run } := by
  obtain ⟨g, hg, hs⟩ := Option.bind_eq_some_iff.1 h
  obtain rfl := Option.some.inj hs
  exact ⟨⟨rfl, rfl, rfl, rfl, rfl, rfl, rfl⟩, g, hg, fun q => by simp⟩

/-- A wakeup, if there is one, is calm for everybody, and the process woken up no longer sleeps. -/
theorem wakeupProcIf_calm {c : Prop} [Decidable c] (h : s.wakeupProcIf c p = some s') :
    (∀ q, (s.pcb q).run.Calm (s'.pcb q).run ∧ (q ≠ p → (s'.pcb q).run = (s.pcb q).run) ∧
      (s'.pcb q).pid = (s.pcb q).pid ∧ (s'.pcb q).parent = (s.pcb q).parent) ∧
    (c → (s'.pcb p).run.state = .runnable) := by
  simp only [wakeupProcIf] at h
  split_ifs at h with hc
  · obtain ⟨-, g, hg, hpcb⟩ := wakeupProc_pcb h
    obtain ⟨hcalm, hrun⟩ := Proc.wakeup_calm hg
    refine ⟨fun q => ?_, fun _ => by simp [hpcb, hrun]⟩
    by_cases hq : q = p
    · subst hq; simp [hpcb, hcalm]
    · simp [hpcb, hq, Proc.Calm.refl]
  · obtain rfl := Option.some.inj h
    exact ⟨fun q => ⟨.refl _, fun _ => rfl, rfl, rfl⟩, fun hc' => absurd hc' hc⟩

/-! ## Exit -/

/-- One round of the loop of `do_exit`: the first child `x` becomes a child of `initproc`. -/
theorem reparent_round (hx : (s.pcb cur).cptr = some x)
    (h : reparent cur init (k + 1) s = some s') :
    ∃ s₁ s₂ : Procs P, (∀ q, (s₁.pcb q).run = (s.pcb q).run ∧ (s₁.pcb q).pid = (s.pcb q).pid ∧
        (s₁.pcb q).parent = if q = x then some init else (s.pcb q).parent) ∧
      s₁.wakeupProcIf ((s₁.pcb x).run.state = .zombie ∧ (s₁.pcb init).run.waitState = wtChild)
        init = some s₂ ∧ reparent cur init k s₂ = some s' := by
  simp only [reparent, hx] at h
  obtain ⟨s₂, h₂, h'⟩ := Option.bind_eq_some_iff.1 h
  exact ⟨_, s₂, fun q => ⟨by simp, by simp, by simp⟩, h₂, h'⟩

/-- The loop of `do_exit` only wakes up `initproc`, and only changes parents to `initproc`. -/
theorem reparent_calm : ∀ {k : ℕ} {s : Procs P}, reparent cur init k s = some s' → ∀ q,
    (s.pcb q).run.Calm (s'.pcb q).run ∧ (q ≠ init → (s'.pcb q).run = (s.pcb q).run) ∧
      (s'.pcb q).pid = (s.pcb q).pid ∧
      ((s'.pcb q).parent = (s.pcb q).parent ∨ (s'.pcb q).parent = some init)
  | 0, s, h, q => by cases h
  | k + 1, s, h, q => by
    cases hx : (s.pcb cur).cptr with
    | none =>
      simp only [reparent, hx, Option.some.injEq] at h
      subst h
      exact ⟨.refl _, fun _ => rfl, rfl, Or.inl rfl⟩
    | some x =>
      obtain ⟨s₁, s₂, h₁, h₂, h'⟩ := reparent_round hx h
      obtain ⟨a1, a2, a3⟩ := h₁ q
      obtain ⟨b1, b2, b3, b4⟩ := (wakeupProcIf_calm h₂).1 q
      obtain ⟨c1, c2, c3, c4⟩ := reparent_calm h' q
      rw [a1] at b1 b2
      refine ⟨b1.trans c1, fun hq => (c2 hq).trans (b2 hq), c3.trans (b3.trans a2), ?_⟩
      rcases c4 with hc | hc
      · rw [hc, b4, a3]
        split_ifs
        exacts [Or.inr rfl, Or.inl rfl]
      · exact Or.inr hc

/-- **A zombie handed to `initproc`** does not leave it asleep in `do_wait`. -/
theorem reparent_zombie : ∀ {k : ℕ} {s : Procs P}, reparent cur init k s = some s' →
    (s'.pcb init).Asleep → (s'.pcb q).Zombie → (s'.pcb q).parent = some init →
      (s.pcb q).parent = some init
  | 0, s, h, _, _, _ => by cases h
  | k + 1, s, h, ha, hz, hp => by
    cases hx : (s.pcb cur).cptr with
    | none =>
      simp only [reparent, hx, Option.some.injEq] at h
      exact h ▸ hp
    | some x =>
      obtain ⟨s₁, s₂, h₁, h₂, h'⟩ := reparent_round hx h
      have hp₂ := reparent_zombie h' ha hz hp
      rw [((wakeupProcIf_calm h₂).1 q).2.2.2, (h₁ q).2.2] at hp₂
      split_ifs at hp₂ with hqx
      · -- the child that moves is the zombie, and `initproc` was asleep before
        subst hqx
        have ha₂ := (reparent_calm h' init).1.sleeping (by rw [ha])
        have hz₂ := (reparent_calm h' q).1.zombie.1 hz
        have hz₁ := ((wakeupProcIf_calm h₂).1 q).1.zombie.1 hz₂
        have ha₁ := ((wakeupProcIf_calm h₂).1 init).1.sleeping (by rw [← ha₂, ha])
        have hrun := (wakeupProcIf_calm h₂).2 ⟨hz₁, by rw [← ha₁, ← ha₂, ha]⟩
        rw [← ha₂, ha] at hrun
        cases hrun
      · exact hp₂

/-- The parts of `do_exit`. -/
theorem doExit_parts {code : ℤ} (hi : s.initproc = some init)
    (hp : (s.pcb cur).parent = some par) (h : s.doExit cur code = some s') :
    ∃ s₁ s₂ : Procs P, (∀ q, (s₁.pcb q).pid = (s.pcb q).pid ∧ (s₁.pcb q).parent = (s.pcb q).parent ∧
        (s₁.pcb q).run = if q = cur then ⟨.zombie, (s.pcb cur).run.waitState⟩ else (s.pcb q).run) ∧
      s₁.wakeupProcIf ((s₁.pcb par).run.waitState = wtChild) par = some s₂ ∧
      reparent cur init fuel s₂ = some s' := by
  simp only [doExit, hi] at h
  split_ifs at h
  simp only [Option.bind_eq_bind, Option.bind_some] at h
  obtain ⟨par', hp', h⟩ := Option.bind_eq_some_iff.1 h
  obtain ⟨s₂, h₂, h'⟩ := Option.bind_eq_some_iff.1 h
  obtain rfl : par = par' := by simpa [hp] using hp'
  exact ⟨_, s₂, fun q => ⟨by simp, by simp, by simp⟩, h₂, h'⟩

/-- The process that exits becomes a zombie; the others are left alone or woken up. -/
theorem doExit_calm {code : ℤ} (hi : s.initproc = some init) (hp : (s.pcb cur).parent = some par)
    (hci : cur ≠ init) (hcp : cur ≠ par) (h : s.doExit cur code = some s') :
    (s'.pcb cur).run = ⟨.zombie, (s.pcb cur).run.waitState⟩ ∧
      ∀ q, (q ≠ cur → (s.pcb q).run.Calm (s'.pcb q).run) ∧ (s'.pcb q).pid = (s.pcb q).pid := by
  obtain ⟨s₁, s₂, h₁, h₂, h'⟩ := doExit_parts hi hp h
  refine ⟨?_, fun q => ⟨fun hq => ?_, ?_⟩⟩
  · rw [(reparent_calm h' cur).2.1 hci, ((wakeupProcIf_calm h₂).1 cur).2.1 hcp, (h₁ cur).2.2,
      if_pos rfl]
  · have hc := ((wakeupProcIf_calm h₂).1 q).1
    rw [(h₁ q).2.2, if_neg hq] at hc
    exact hc.trans (reparent_calm h' q).1
  · rw [(reparent_calm h' q).2.2.1, ((wakeupProcIf_calm h₂).1 q).2.2.1, (h₁ q).1]

/-- **No exit is missed**: a process asleep in `do_wait` after a `do_exit` has no zombie child that
    it did not have before. -/
theorem doExit_zombie {code : ℤ} (hi : s.initproc = some init)
    (hp : (s.pcb cur).parent = some par) (h : s.doExit cur code = some s')
    (ha : (s'.pcb p).Asleep) (hz : (s'.pcb q).Zombie) (hq : (s'.pcb q).parent = some p) :
    (s.pcb q).Zombie ∧ (s.pcb q).parent = some p := by
  obtain ⟨s₁, s₂, h₁, h₂, h'⟩ := doExit_parts hi hp h
  have hz₁ := ((wakeupProcIf_calm h₂).1 q).1.zombie.1 ((reparent_calm h' q).1.zombie.1 hz)
  have hq₂ : (s₂.pcb q).parent = some p := by
    rcases (reparent_calm h' q).2.2.2 with hs | hs
    · rw [← hs, hq]
    · obtain rfl : init = p := by simpa [hs] using hq
      exact reparent_zombie h' ha hz hq
  rw [((wakeupProcIf_calm h₂).1 q).2.2.2, (h₁ q).2.1] at hq₂
  rw [(h₁ q).2.2] at hz₁
  split_ifs at hz₁ with hqc
  · -- the process that exits is a child of `par`, which has been woken up
    subst hqc
    obtain rfl : par = p := by simpa [hp] using hq₂
    have ha₂ := (reparent_calm h' par).1.sleeping (by rw [ha])
    have ha₁ := ((wakeupProcIf_calm h₂).1 par).1.sleeping (by rw [← ha₂, ha])
    have hrun := (wakeupProcIf_calm h₂).2 (by rw [← ha₁, ← ha₂, ha])
    rw [← ha₂, ha] at hrun
    cases hrun
  · exact ⟨hz₁, hq₂⟩

/-! ## Fork -/

/-- A child that joins the table runs; `get_pid` and `set_links` leave the others' states alone. -/
theorem doForkEnd_pcb (h : s.Tree live) (hf : s.forking cur = some q)
    (hp : (s.pcb q).parent = some cur) (hst : (s.pcb q).run = ⟨.uninit, 0⟩)
    (hc : (live.card : ℤ) < maxPid) {pid : ℤ} (hs : s.doForkEnd cur = some (pid, s')) :
    (s'.pcb q).run = ⟨.runnable, 0⟩ ∧ s'.forking = Function.update s.forking cur none ∧
      ∀ p, (p ≠ q → (s'.pcb p).run = (s.pcb p).run ∧ (s'.pcb p).pid = (s.pcb p).pid) ∧
        (s'.pcb p).parent = (s.pcb p).parent := by
  obtain ⟨pid', safe, hget, -⟩ := h.getPid_spec hc
  simp only [doForkEnd, hf, hget, Option.bind_eq_bind, Option.bind_some] at hs
  obtain ⟨s₁, h₁, hs⟩ := Option.bind_eq_some_iff.1 hs
  obtain ⟨s₂, h₂, hs⟩ := Option.bind_eq_some_iff.1 hs
  obtain ⟨-, rfl⟩ := by simpa using hs
  obtain ⟨s₁', h₁', ⟨-, -, -, -, -, -, hfork⟩, hpcb₁⟩ := setLinks_spec
    (s := (({ s with lastPid := pid', nextSafe := safe } : Procs P).setPid q pid').hashProc q)
    (q := q) (by simpa [hashProc] using hp)
  obtain rfl : s₁' = s₁ := by simpa [h₁'] using h₁
  obtain ⟨⟨-, -, -, -, -, -, hfork₂⟩, g, hg, hpcb₂⟩ := wakeupProc_pcb h₂
  have hrun : (s₁'.pcb q).run = ⟨.uninit, 0⟩ := by rw [hpcb₁]; simpa [hashProc] using hst
  obtain rfl : ⟨.runnable, 0⟩ = g := by simpa [hrun, Proc.wakeup] using hg
  refine ⟨by simp [hpcb₂], ?_, fun p => ⟨fun hpq => ?_, ?_⟩⟩
  · show Function.update s₂.forking cur none = _
    rw [hfork₂, hfork]; rfl
  · simp [hpcb₂, hpcb₁, hpq, hashProc]
  · simp [hpcb₂, hpcb₁, hashProc]

/-! ## The search of `do_wait` -/

/-- What unlinks a process leaves its `run`, `pid` and `parent` alone, and those of the others. -/
theorem removeLinks_pcb (h : s.removeLinks q = some s') :
    ∀ p, (s'.pcb p).run = (s.pcb p).run ∧ (s'.pcb p).pid = (s.pcb p).pid ∧
      (s'.pcb p).parent = (s.pcb p).parent := by
  intro p
  cases hy : (s.pcb q).yptr with
  | none =>
    simp only [removeLinks, pcb_setYptr?, hy, ite_self, Option.bind_eq_bind] at h
    obtain ⟨par, -, hs⟩ := Option.bind_eq_some_iff.1 h
    obtain rfl := Option.some.inj hs
    simp
  | some y =>
    simp only [removeLinks, pcb_setYptr?, hy, ite_self, Option.bind_eq_bind, Option.bind_some,
      Option.some.injEq] at h
    subst h
    simp

/-- **`do_wait` looks at every child it waits for**: the zombie it finds is one of them, and if it
    finds none, then none of them is a zombie. -/
theorem Tree.waitSearch_all (h : Tree s live) (hcard : live.card ≤ fuel) (hcur : cur ∈ live)
    (pid : ℤ) : ∃ haskid o, s.waitSearch cur pid = some (haskid, o) ∧
      ∀ q ∈ live, (s.pcb q).parent = some cur → pid = 0 ∨ (s.pcb q).pid = pid →
        haskid = true ∧ (o = none → ¬ (s.pcb q).Zombie) ∧ (pid ≠ 0 → ∀ r, o = some r → r = q) := by
  by_cases hp : pid = 0
  · obtain ⟨qs, ⟨hc, hnd⟩, hqs⟩ := h.kids cur hcur
    have hlen : qs.length < fuel := h.length_lt hcard hnd fun x hx => Finset.mem_erase.2
      ⟨(h.parent_mem ((hqs x).1 hx).1 ((hqs x).1 hx).2).2.1, ((hqs x).1 hx).1⟩
    refine ⟨!qs.isEmpty, qs.find? fun p => (s.pcb p).run.state = .zombie, ?_,
      fun q hq hqp _ => ⟨?_, fun ho => ?_, fun hne => absurd hp hne⟩⟩
    · simp only [waitSearch, hp, ne_eq, not_true, if_false, childWalk_spec hc hlen, Bool.false_or]
    · have hm := (hqs q).2 ⟨hq, hqp⟩
      cases qs with
      | nil => cases hm
      | cons _ _ => rfl
    · simpa using List.find?_eq_none.1 ho q ((hqs q).2 ⟨hq, hqp⟩)
  · obtain ⟨o, ho, hoq⟩ := h.findProc_spec hcard pid
    have hfound : ∀ q ∈ live, (s.pcb q).parent = some cur → (s.pcb q).pid = pid → o = some q :=
      fun q hq hqp hpid =>
        (hoq q).2 ⟨Finset.mem_erase.2 ⟨(h.parent_mem hq hqp).2.1, hq⟩, hpid⟩
    cases o with
    | none =>
      refine ⟨false, none, by simp [waitSearch, hp, ho], fun q hq hqp hpid => ?_⟩
      cases hfound q hq hqp (hpid.resolve_left hp)
    | some x =>
      by_cases hpar : (s.pcb x).parent = some cur
      · refine ⟨true, if (s.pcb x).run.state = .zombie then some x else none,
          by simp [waitSearch, hp, ho, hpar], fun q hq hqp hpid => ⟨rfl, fun hn hz => ?_, ?_⟩⟩
        all_goals
          obtain rfl : x = q := by simpa using hfound q hq hqp (hpid.resolve_left hp)
        · simp [show (s.pcb x).run.state = .zombie from hz] at hn
        · intro _ r hr
          split_ifs at hr
          exact (Option.some.inj hr).symm
      · refine ⟨false, none, by simp [waitSearch, hp, ho, hpar], fun q hq hqp hpid => ?_⟩
        obtain rfl : x = q := by simpa using hfound q hq hqp (hpid.resolve_left hp)
        exact absurd hqp hpar

end Procs

end Ucore
