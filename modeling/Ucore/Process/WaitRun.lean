/-
  No child exit is missed.

  `WaitSys` is the process table with the flags of the processes.  Its ghosts are the `do_wait` that
  a process is in (`waiting`), and how often a structure became a zombie (`exits`) and was freed
  with its kernel stack (`frees`).

  * `WaitSys.Inv`: who sleeps with `WT_CHILD` is in `do_wait`, and waits for no zombie; what is
    awake has no wait state; every zombie is still in the table or has been freed once;
  * `WaitSys.Inv.step`: each step keeps this, and does not fail;
  * `WaitSys.no_missed_child_exit`: what holds in every state reached.
-/
import Ucore.Process.Wait

namespace Ucore

open Intrusive

set_option linter.unusedSectionVars false

variable {P : Type} [DecidableEq P]

/-- The process table, and the processes that wait for their children. -/
structure WaitSys (P : Type) extends ProcSys P where
  flags : P → BitVec 32
  /-- The `pid` of the `do_wait` that a process is in, from its first sleep on. -/
  waiting : P → Option ℤ
  exits : P → ℕ
  frees : P → ℕ

inductive WaitOp (P : Type) where
  | forkBegin (current proc : P)
  | forkFail (current : P)
  | forkEnd (current : P)
  | exit (current : P) (errorCode : ℤ)
  /-- One pass of `do_wait`. -/
  | wait (current : P) (pid : ℤ)
  | kill (current : P) (pid : ℤ)
  /-- A process goes to sleep elsewhere than in `do_wait`. -/
  | sleep (current : P) (waitState : BitVec 32)
  | wakeup (proc : P)

namespace WaitSys

def step (w : WaitSys P) : WaitOp P → Option (WaitSys P)
  | .forkBegin cur q =>
    match w.procs.doForkBegin cur q with
    | (s, true) => some { w with
        procs := s, flags := Function.update w.flags q 0
        waiting := Function.update w.waiting q none }
    | (s, false) => some { w with procs := s }
  | .forkFail cur => some { w with procs := w.procs.doForkFail cur }
  | .forkEnd cur => do
    let v ← w.toProcSys.step (.forkEnd cur)
    some { w with toProcSys := v }
  | .exit cur code => do
    let s ← w.procs.doExit cur code
    some { w with
      procs := s, waiting := Function.update w.waiting cur none
      exits := Function.update w.exits cur (w.exits cur + 1) }
  | .wait cur pid => do
    let (_, found) ← w.procs.waitSearch cur pid
    let (r, s) ← w.procs.doWait cur pid
    let w := { w with
      procs := s
      waiting := Function.update w.waiting cur (if r = .sleeping then some pid else none) }
    match found with
    | some q => some { w with
        live := w.live.erase q, frees := Function.update w.frees q (w.frees q + 1) }
    | none => some w
  | .kill _ pid => do
    let (_, s, flags) ← w.procs.doKill w.flags pid
    some { w with procs := s, flags := flags }
  | .sleep cur ws => some { w with procs := w.procs.setRun cur ⟨.sleeping, ws⟩ }
  | .wakeup p => do
    let s ← w.procs.wakeupProc p
    some { w with procs := s }

/-- The process is not inside `do_wait`. -/
def Outside (w : WaitSys P) (p : P) : Prop := w.waiting p = none

def Exiting (w : WaitSys P) (p : P) : Prop := w.flags p &&& pfExiting ≠ 0

/-- Running processes make system calls.  What wakes up inside `do_wait` goes for another pass, or
    exits if it has been killed; `idleproc` and `initproc` do not exit. -/
def Legal (w : WaitSys P) : WaitOp P → Prop
  | .forkBegin cur q => w.Outside cur ∧ w.toProcSys.Legal (.forkBegin cur q)
  | .forkFail cur => w.toProcSys.Legal (.forkFail cur)
  | .forkEnd cur => w.toProcSys.Legal (.forkEnd cur)
  | .exit cur code => (w.Outside cur ∨ w.Exiting cur) ∧ w.toProcSys.Legal (.exit cur code)
  | .wait cur pid => (w.Outside cur ∨ w.waiting cur = some pid ∧ ¬ w.Exiting cur) ∧
      w.toProcSys.Legal (.wait cur pid)
  | .kill cur _ => w.Outside cur ∧ w.Runs cur
  | .sleep cur ws => w.Outside cur ∧ cur ∈ w.live ∧ (w.procs.pcb cur).run.state = .runnable ∧
      ws ≠ wtChild
  | .wakeup p => p ∈ w.live ∧ ¬ (w.procs.pcb p).Zombie

/-- `q` is a child that the process `p`, inside `do_wait`, waits for. -/
def Awaits (w : WaitSys P) (p q : P) : Prop :=
  ∃ pid, w.waiting p = some pid ∧ q ∈ w.live ∧ (w.procs.pcb q).parent = some p ∧
    (pid = 0 ∨ (w.procs.pcb q).pid = pid)

structure Inv (w : WaitSys P) : Prop where
  sys : w.toProcSys.Inv
  awake : ∀ p ∈ w.live, (w.procs.pcb p).run.state ≠ .sleeping →
    (w.procs.pcb p).run.waitState = 0
  newborn : ∀ p q, w.procs.forking p = some q → (w.procs.pcb q).run = ⟨.uninit, 0⟩
  asleep : ∀ p ∈ w.live, (w.procs.pcb p).run.state = .sleeping →
    ((w.procs.pcb p).run.waitState = wtChild ↔ w.waiting p ≠ none)
  quiet : ∀ p ∈ w.live, (w.procs.pcb p).Asleep → ∀ q, w.Awaits p q → ¬ (w.procs.pcb q).Zombie
  count : ∀ p, w.exits p = w.frees p +
    if p ∈ w.live ∧ (w.procs.pcb p).Zombie then 1 else 0

variable {w w' : WaitSys P} {p q cur : P} {op : WaitOp P}

/-! ## Calm steps -/

/-- A step that leaves processes alone, wakes them up, or unlinks one. -/
structure Calm (w w' : WaitSys P) : Prop where
  live : w'.live ⊆ w.live
  run : ∀ p ∈ w'.live, (w.procs.pcb p).run.Calm (w'.procs.pcb p).run
  pid : ∀ p ∈ w'.live, (w'.procs.pcb p).pid = (w.procs.pcb p).pid
  parent : ∀ p ∈ w'.live, (w'.procs.pcb p).parent = (w.procs.pcb p).parent
  waiting : ∀ p ∈ w'.live, (w'.procs.pcb p).run.state = .sleeping → w'.waiting p = w.waiting p

theorem Calm.awake (h : w.Inv) (c : Calm w w') : ∀ p ∈ w'.live,
    (w'.procs.pcb p).run.state ≠ .sleeping → (w'.procs.pcb p).run.waitState = 0 :=
  fun p hp => (c.run p hp).awake (h.awake p (c.live hp))

theorem Calm.asleep (h : w.Inv) (c : Calm w w') : ∀ p ∈ w'.live,
    (w'.procs.pcb p).run.state = .sleeping →
      ((w'.procs.pcb p).run.waitState = wtChild ↔ w'.waiting p ≠ none) := by
  intro p hp hs
  have hrun := (c.run p hp).sleeping hs
  rw [c.waiting p hp hs, hrun]
  exact h.asleep p (c.live hp) (hrun ▸ hs)

theorem Calm.quiet (h : w.Inv) (c : Calm w w') : ∀ p ∈ w'.live, (w'.procs.pcb p).Asleep →
    ∀ q, w'.Awaits p q → ¬ (w'.procs.pcb q).Zombie := by
  rintro p hp ha q ⟨pid, hw, hq, hqp, hpid⟩ hz
  have hs : (w'.procs.pcb p).run.state = .sleeping := by rw [ha]
  have hrun := (c.run p hp).sleeping hs
  rw [c.waiting p hp hs] at hw
  rw [c.parent q hq] at hqp
  rw [c.pid q hq] at hpid
  exact h.quiet p (c.live hp) (by rw [Pcb.Asleep, ← hrun, ha]) q ⟨pid, hw, c.live hq, hqp, hpid⟩
    ((c.run q hq).zombie.1 hz)

/-- A calm step that frees nothing. -/
theorem Inv.calm (h : w.Inv) (c : Calm w w') (hl : w'.live = w.live) (hs : w'.toProcSys.Inv)
    (hn : ∀ p q, w'.procs.forking p = some q → (w'.procs.pcb q).run = ⟨.uninit, 0⟩)
    (he : w'.exits = w.exits) (hf : w'.frees = w.frees) : w'.Inv := by
  refine ⟨hs, c.awake h, hn, c.asleep h, c.quiet h, fun p => ?_⟩
  rw [he, hf, h.count p]
  by_cases hp : p ∈ w'.live
  · rw [hl] at hp ⊢
    simp only [hp, true_and, Pcb.Zombie, (c.run p (hl ▸ hp)).zombie]
  · have hp' : p ∉ w.live := hl ▸ hp
    simp [hp, hp']

/-- What a step does to the zombies: `freed` loses its structure and its kernel stack, to its
    parent; the others stay what they are. -/
structure Outcome (w : WaitSys P) (op : WaitOp P) (w' : WaitSys P) (freed : Option P) : Prop where
  kept : ∀ q ∈ w.live, (w.procs.pcb q).Zombie → freed ≠ some q →
    q ∈ w'.live ∧ (w'.procs.pcb q).Zombie
  frees : ∀ q, w'.frees q = w.frees q + if freed = some q then 1 else 0
  gone : ∀ q, freed = some q → q ∈ w.live ∧ (w.procs.pcb q).Zombie ∧ q ∉ w'.live ∧
    ∃ cur pid, op = .wait cur pid ∧ (w.procs.pcb q).parent = some cur

/-- A step that frees nothing. -/
theorem Outcome.nothing (hk : ∀ q ∈ w.live, (w.procs.pcb q).Zombie →
    q ∈ w'.live ∧ (w'.procs.pcb q).Zombie) (hf : w'.frees = w.frees) :
    w.Outcome op w' none :=
  ⟨fun q hq hz _ => hk q hq hz, fun q => by simp [hf], fun q hq => by cases hq⟩

theorem Calm.outcome (c : Calm w w') (hl : w'.live = w.live) (hf : w'.frees = w.frees) :
    w.Outcome op w' none :=
  .nothing (fun q hq hz => ⟨hl ▸ hq, (c.run q (hl ▸ hq)).zombie.2 hz⟩) hf

/-- A step from `w` succeeds, keeps the invariant, and frees at most one zombie. -/
def Steps (w : WaitSys P) (op : WaitOp P) : Prop :=
  ∃ w' freed, w.step op = some w' ∧ w'.Inv ∧ w.Outcome op w' freed

/-! ## Fork -/

theorem doForkBegin_cases (s : Procs P) (cur q : P) : s.doForkBegin cur q = (s, false) ∨
    ∃ s', s.doForkBegin cur q = (s', true) ∧
      s'.forking = Function.update s.forking cur (some q) ∧ (s'.pcb q).run = ⟨.uninit, 0⟩ ∧
      ∀ p, p ≠ q → s'.pcb p = s.pcb p := by
  simp only [Procs.doForkBegin]
  split_ifs
  · exact Or.inl rfl
  · refine Or.inr ⟨_, rfl, rfl, by simp [Procs.allocProc], fun p hp => ?_⟩
    simp [Procs.allocProc, hp]

theorem Inv.forkBegin (h : w.Inv) (hl : w.Legal (.forkBegin cur q)) :
    w.Steps (.forkBegin cur q) := by
  obtain ⟨-, hl⟩ := hl
  obtain ⟨v, hv, hvi⟩ := h.sys.step hl
  obtain rfl := Option.some.inj hv
  obtain ⟨-, hq, hfr⟩ := hl
  have hne : ∀ p ∈ w.live, p ≠ q := by rintro p hp rfl; exact hq hp
  rcases doForkBegin_cases w.procs cur q with hb | ⟨s, hb, hf, hrun, hpcb⟩
  · refine ⟨w, none, by simp only [WaitSys.step, hb], h, .nothing (fun q hq hz => ⟨hq, hz⟩) rfl⟩
  · have c : Calm w { w with
        procs := s, flags := Function.update w.flags q 0
        waiting := Function.update w.waiting q none } := by
      refine ⟨subset_rfl, fun p hp => ?_, fun p hp => ?_, fun p hp => ?_, fun p hp _ => ?_⟩
      · simp only [hpcb p (hne p hp)]; exact .refl _
      · simp only [hpcb p (hne p hp)]
      · simp only [hpcb p (hne p hp)]
      · exact Function.update_of_ne (hne p hp) ..
    refine ⟨_, none, by simp only [WaitSys.step, hb], h.calm c rfl ?_ (fun p r hp => ?_) rfl rfl,
      c.outcome rfl rfl⟩
    · rw [hb] at hvi; exact hvi
    · simp only [hf] at hp
      by_cases hpc : p = cur
      · subst hpc
        obtain rfl : q = r := by simpa using hp
        exact hrun
      · rw [Function.update_of_ne hpc] at hp
        have hrq : r ≠ q := by
          rintro rfl
          obtain ⟨F, hF, hsub, -⟩ := h.sys.forks.bound
          exact hfr p (hsub ((hF p).2 (by simp [hp]))) hp
        simp only [hpcb r hrq]
        exact h.newborn p r hp

theorem Inv.forkFail (h : w.Inv) (hl : w.Legal (.forkFail cur)) : w.Steps (.forkFail cur) := by
  have hl' : w.toProcSys.Legal (.forkFail cur) := hl
  obtain ⟨v, hv, hvi⟩ := h.sys.step hl'
  obtain rfl := Option.some.inj hv
  have c : Calm w { w with procs := w.procs.doForkFail cur } :=
    ⟨subset_rfl, fun _ _ => .refl _, fun _ _ => rfl, fun _ _ => rfl, fun _ _ _ => rfl⟩
  refine ⟨_, none, rfl, h.calm c rfl hvi (fun p q hp => h.newborn p q ?_) rfl rfl,
    c.outcome rfl rfl⟩
  by_cases hpc : p = cur
  · simp [Procs.doForkFail, hpc] at hp
  · simpa [Procs.doForkFail, hpc] using hp

theorem Inv.forkEnd (h : w.Inv) (hl : w.Legal (.forkEnd cur)) : w.Steps (.forkEnd cur) := by
  have hl' : w.toProcSys.Legal (.forkEnd cur) := hl
  obtain ⟨v, hv, hvi⟩ := h.sys.step hl'
  obtain ⟨q, hf⟩ := Option.ne_none_iff_exists'.1 hl
  have t := h.sys.tree
  obtain ⟨hq, hp, -, -, -, huniq⟩ := h.sys.forks.child cur q hf
  have hv' := hv
  simp only [ProcSys.step, hf, Option.bind_eq_bind, Option.bind_some] at hv'
  obtain ⟨⟨pid, s⟩, hs, hv'⟩ := Option.bind_eq_some_iff.1 hv'
  obtain rfl := Option.some.inj hv'
  have hcard : (w.live.card : ℤ) < maxPid := by
    have := ProcSys.card_le t h.sys.forks
    simp only [maxPid]; rw [ProcSys.maxProcess_eq] at *; omega
  obtain ⟨hrun, hfork, hpcb⟩ := Procs.doForkEnd_pcb t hf hp (h.newborn cur q hf) hcard hs
  have hne : ∀ p ∈ w.live, p ≠ q := by rintro p hpl rfl; exact hq hpl
  have hold : ∀ p, p ≠ q → p ∈ insert q w.live → p ∈ w.live := fun p hpq hp =>
    (Finset.mem_insert.1 hp).resolve_left hpq
  refine ⟨{ w with toProcSys := ⟨s, insert q w.live⟩ }, none, by simp only [WaitSys.step, hv,
    Option.bind_eq_bind, Option.bind_some], ⟨hvi, fun p hp' hs' => ?_, fun p r hpr => ?_,
      fun p hp' hs' => ?_, ?_, fun p => ?_⟩, .nothing (fun p hp' hz => ⟨?_, ?_⟩) rfl⟩
  · by_cases hpq : p = q
    · subst hpq; simp [hrun]
    · rw [((hpcb p).1 hpq).1] at hs' ⊢
      exact h.awake p (hold p hpq hp') hs'
  · simp only [hfork] at hpr
    have hpc : p ≠ cur := by rintro rfl; simp at hpr
    rw [Function.update_of_ne hpc] at hpr
    have hrq : r ≠ q := by
      rintro rfl
      exact hpc (huniq p hpr)
    simp only [((hpcb r).1 hrq).1]
    exact h.newborn p r hpr
  · by_cases hpq : p = q
    · subst hpq; simp [hrun] at hs'
    · rw [((hpcb p).1 hpq).1] at hs' ⊢
      exact h.asleep p (hold p hpq hp') hs'
  · rintro p hp' ha r ⟨pid', hw, hr, hrp, hpid⟩ hz
    have hpq : p ≠ q := by
      rintro rfl
      rw [Pcb.Asleep, hrun] at ha; cases ha
    have hrq : r ≠ q := by
      rintro rfl
      rw [Pcb.Zombie, hrun] at hz; cases hz
    rw [Pcb.Asleep, ((hpcb p).1 hpq).1] at ha
    rw [Pcb.Zombie, ((hpcb r).1 hrq).1] at hz
    rw [(hpcb r).2] at hrp
    rw [((hpcb r).1 hrq).2] at hpid
    exact h.quiet p (hold p hpq hp') ha r ⟨pid', hw, hold r hrq hr, hrp, hpid⟩ hz
  · show w.exits p = w.frees p + _
    rw [h.count p]
    by_cases hpq : p = q
    · subst hpq; simp [hq, hrun, Pcb.Zombie]
    · simp [Pcb.Zombie, ((hpcb p).1 hpq).1, hpq]
  · exact Finset.mem_insert_of_mem hp'
  · rw [Pcb.Zombie, ((hpcb p).1 (hne p hp')).1]; exact hz

/-! ## Exit -/

theorem Inv.exit (h : w.Inv) {code : ℤ} (hl : w.Legal (.exit cur code)) :
    w.Steps (.exit cur code) := by
  obtain ⟨-, hl⟩ := hl
  obtain ⟨v, hv, hvi⟩ := h.sys.step hl
  obtain ⟨⟨hcl, hcr, hcf⟩, hci, hcn⟩ := hl
  obtain ⟨i, hi, hil, hip, hiz⟩ := h.sys.init
  rw [hi, ne_eq, Option.some.injEq] at hcn
  obtain ⟨s', hs', -, ⟨-, -, -, -, -, -, hfork⟩, -, -, hrest⟩ := h.sys.tree.exit
    (ProcSys.card_le_fuel h.sys.tree h.sys.forks) (Finset.mem_erase.2 ⟨hci, hcl⟩) hi
    (Finset.mem_erase.1 hil).2 hip hiz hcn code
  obtain ⟨par, -, hpar, hcp⟩ := h.sys.tree.parent cur (Finset.mem_erase.2 ⟨hci, hcl⟩)
  obtain ⟨s, hs, hv'⟩ := Option.bind_eq_some_iff.1 hv
  obtain rfl := Option.some.inj hv'
  obtain rfl : s' = s := by simpa [hs'] using hs
  obtain ⟨hrun, hpcb⟩ := Procs.doExit_calm hi hpar hcn hcp hs
  have hws : (w.procs.pcb cur).run.waitState = 0 := h.awake cur hcl (by simp [hcr])
  have hzom : ∀ p, p ≠ cur → ((s'.pcb p).Zombie ↔ (w.procs.pcb p).Zombie) := fun p hp =>
    ((hpcb p).1 hp).zombie
  have hzc : (s'.pcb cur).Zombie := by rw [Pcb.Zombie, hrun]
  refine ⟨{ w with
      procs := s', waiting := Function.update w.waiting cur none
      exits := Function.update w.exits cur (w.exits cur + 1) }, none,
    by simp only [WaitSys.step, hs, Option.bind_eq_bind, Option.bind_some],
    ⟨hvi, fun p hp hps => ?_, fun p q hpq => ?_, fun p hp hps => ?_, ?_, fun p => ?_⟩,
    .nothing (fun p hp hz => ⟨hp, ?_⟩) rfl⟩
  · by_cases hpc : p = cur
    · subst hpc
      show (s'.pcb p).run.waitState = 0
      rw [hrun, hws]
    · exact ((hpcb p).1 hpc).awake (h.awake p hp) hps
  · simp only [hfork] at hpq
    rw [((hrest q).2 (h.sys.forks.child p q hpq).1).1]
    exact h.newborn p q hpq
  · have hpc : p ≠ cur := by
      rintro rfl
      rw [hzc] at hps; cases hps
    have he := ((hpcb p).1 hpc).sleeping hps
    simp only [Function.update_of_ne hpc]
    rw [he] at hps ⊢
    exact h.asleep p hp hps
  · rintro p hp ha q ⟨pid, hw, hq, hqp, hpid⟩ hz
    have hpc : p ≠ cur := by
      rintro rfl
      rw [Pcb.Asleep, hrun] at ha; cases ha
    have he := ((hpcb p).1 hpc).sleeping (by rw [ha])
    obtain ⟨hz', hqp'⟩ := Procs.doExit_zombie hi hpar hs ha hz hqp
    simp only [Function.update_of_ne hpc] at hw
    rw [(hpcb q).2] at hpid
    exact h.quiet p hp (by rw [Pcb.Asleep, ← he, ha]) q ⟨pid, hw, hq, hqp', hpid⟩ hz'
  · show Function.update w.exits cur (w.exits cur + 1) p = w.frees p + _
    by_cases hpc : p = cur
    · subst hpc
      have hc := h.count p
      rw [if_neg (by simp [Pcb.Zombie, hcr])] at hc
      rw [Function.update_self, if_pos ⟨hcl, hzc⟩]; omega
    · rw [Function.update_of_ne hpc, h.count p]
      simp only [hzom p hpc]
  · by_cases hpc : p = cur
    · exact hpc ▸ hzc
    · exact (hzom p hpc).2 hz

/-! ## Wakeups -/

/-- A process of the table is woken up, if at all; its flags may change. -/
theorem Inv.woken (h : w.Inv) (hp : p ∈ w.live) {c : Prop} [Decidable c] {s : Procs P}
    (hs : w.procs.wakeupProcIf c p = some s) (flags : P → BitVec 32) :
    ({ w with procs := s, flags := flags } : WaitSys P).Inv ∧
      Calm w { w with procs := s, flags := flags } := by
  obtain ⟨hcalm, -⟩ := Procs.wakeupProcIf_calm hs
  have c : Calm w { w with procs := s, flags := flags } :=
    ⟨subset_rfl, fun q _ => (hcalm q).1, fun q _ => (hcalm q).2.2.1, fun q _ => (hcalm q).2.2.2,
      fun _ _ _ => rfl⟩
  obtain ⟨hvi, hfork⟩ : ProcSys.Inv ⟨s, w.live⟩ ∧ s.forking = w.procs.forking := by
    simp only [Procs.wakeupProcIf] at hs
    split_ifs at hs
    · obtain ⟨g, hg, hs⟩ := Option.bind_eq_some_iff.1 hs
      obtain rfl := Option.some.inj hs
      have hz : (w.procs.pcb p).run.state ≠ .zombie := fun hz => by simp [Proc.wakeup, hz] at hg
      have hl : w.toProcSys.Legal (.other p g) :=
        ⟨hp, hz, by rw [(Proc.wakeup_calm hg).2]; simp⟩
      obtain ⟨v, hv, hvi⟩ := h.sys.step hl
      obtain rfl := Option.some.inj hv
      exact ⟨hvi, rfl⟩
    · obtain rfl := Option.some.inj hs
      exact ⟨h.sys, rfl⟩
  refine ⟨h.calm c rfl hvi (fun q r hqr => ?_) rfl rfl, c⟩
  simp only [hfork] at hqr
  have hrp : r ≠ p := by
    rintro rfl
    exact (h.sys.forks.child q r hqr).1 hp
  simp only [(hcalm r).2.1 hrp]
  exact h.newborn q r hqr

theorem wakeupProcIf_some (s : Procs P) (p : P) {c : Prop} [Decidable c]
    (hz : c → ¬ (s.pcb p).Zombie) : ∃ s', s.wakeupProcIf c p = some s' := by
  by_cases hc : c
  · obtain ⟨g, -, hw⟩ := Procs.wakeupProc_spec s p (hz hc)
    exact ⟨_, by simp [Procs.wakeupProcIf, hc, hw]; rfl⟩
  · exact ⟨s, by simp [Procs.wakeupProcIf, hc]⟩

theorem Inv.wakeup (h : w.Inv) (hl : w.Legal (.wakeup p)) : w.Steps (.wakeup p) := by
  obtain ⟨hp, hz⟩ := hl
  obtain ⟨s, hs⟩ := wakeupProcIf_some w.procs p (c := True) fun _ => hz
  obtain ⟨hi, c⟩ := h.woken hp hs w.flags
  simp only [Procs.wakeupProcIf, if_true] at hs
  exact ⟨_, none, by simp only [WaitSys.step, hs, Option.bind_eq_bind, Option.bind_some], hi,
    c.outcome rfl rfl⟩

/-- `do_kill` wakes up what sleeps interruptibly, and nothing that has exited. -/
theorem Inv.kill (h : w.Inv) {pid : ℤ} : w.Steps (.kill cur pid) := by
  obtain ⟨o, ho, hop⟩ := h.sys.tree.findProc_spec
    (ProcSys.card_le_fuel h.sys.tree h.sys.forks) pid
  cases o with
  | none =>
    exact ⟨w, none, by simp [WaitSys.step, Procs.doKill, ho], h,
      .nothing (fun q hq hz => ⟨hq, hz⟩) rfl⟩
  | some p =>
    have hp := (Finset.mem_erase.1 ((hop p).1 rfl).1).2
    by_cases hf : w.flags p &&& pfExiting = 0
    · have hz : (w.procs.pcb p).run.waitState &&& wtInterrupted ≠ 0 →
          ¬ (w.procs.pcb p).Zombie := fun hw hz => hw <| by
        rw [h.awake p hp (by simp [show (w.procs.pcb p).run.state = .zombie from hz])]
        simp
      obtain ⟨s, hs⟩ := wakeupProcIf_some w.procs p hz
      obtain ⟨hi, c⟩ := h.woken hp hs (Function.update w.flags p (w.flags p ||| pfExiting))
      exact ⟨_, none, by simp only [WaitSys.step, Procs.doKill, ho, hf, if_true, hs,
        Option.bind_eq_bind, Option.bind_some], hi, c.outcome rfl rfl⟩
    · exact ⟨w, none, by simp only [WaitSys.step, Procs.doKill, ho, hf, if_false,
        Option.bind_eq_bind, Option.bind_some], h,
        .nothing (fun q hq hz => ⟨hq, hz⟩) rfl⟩

/-! ## Sleeping -/

/-- A running process goes to sleep: with `WT_CHILD` when it waits for children, none of which is a
    zombie. -/
theorem Inv.sleeps (h : w.Inv) (hc : cur ∈ w.live) (hr : (w.procs.pcb cur).run.state = .runnable)
    (ws : BitVec 32) {o : Option ℤ} (ho : ws = wtChild ↔ o ≠ none)
    (hq : ∀ q ∈ w.live, (w.procs.pcb q).parent = some cur → ∀ pid, o = some pid →
      pid = 0 ∨ (w.procs.pcb q).pid = pid → ¬ (w.procs.pcb q).Zombie) :
    ({ w with
      procs := w.procs.setRun cur ⟨.sleeping, ws⟩
      waiting := Function.update w.waiting cur o } : WaitSys P).Inv ∧
    ∀ q, (((w.procs.setRun cur ⟨.sleeping, ws⟩).pcb q).Zombie ↔ (w.procs.pcb q).Zombie) := by
  have hcz : ¬ (w.procs.pcb cur).Zombie := by simp [Pcb.Zombie, hr]
  have hzom : ∀ q, ((w.procs.setRun cur ⟨.sleeping, ws⟩).pcb q).Zombie ↔
      (w.procs.pcb q).Zombie := fun q => by
    by_cases hqc : q = cur
    · subst hqc; simp [Pcb.Zombie, hr]
    · simp [Pcb.Zombie, hqc]
  have hl : w.toProcSys.Legal (.other cur ⟨.sleeping, ws⟩) := ⟨hc, hcz, by simp⟩
  obtain ⟨v, hv, hvi⟩ := h.sys.step hl
  obtain rfl := Option.some.inj hv
  refine ⟨⟨hvi, fun p hp hs => ?_, fun p q hpq => ?_, fun p hp hs => ?_, ?_, fun p => ?_⟩, hzom⟩
  · by_cases hpc : p = cur
    · subst hpc; simp at hs
    · simp only [Procs.pcb_setRun, hpc, if_false] at hs ⊢
      exact h.awake p hp hs
  · have hpq' : w.procs.forking p = some q := hpq
    have hqc : q ≠ cur := by
      rintro rfl
      exact (h.sys.forks.child p q hpq').1 hc
    simp only [Procs.pcb_setRun, hqc, if_false]
    exact h.newborn p q hpq'
  · by_cases hpc : p = cur
    · subst hpc; simpa using ho
    · simp only [Procs.pcb_setRun, hpc, if_false, Function.update_of_ne hpc] at hs ⊢
      exact h.asleep p hp hs
  · rintro p hp ha q ⟨pid, hw, hql, hqp, hpid⟩ hz
    rw [hzom] at hz
    simp only [Procs.pcb_setRun] at hqp hpid
    by_cases hpc : p = cur
    · subst hpc
      simp only [Function.update_self] at hw
      exact hq q hql hqp pid hw hpid hz
    · simp only [Function.update_of_ne hpc] at hw
      exact h.quiet p hp (by simpa [Pcb.Asleep, hpc] using ha) q ⟨pid, hw, hql, hqp, hpid⟩ hz
  · simp only [hzom]
    exact h.count p

theorem Inv.sleep (h : w.Inv) {ws : BitVec 32} (hl : w.Legal (.sleep cur ws)) :
    w.Steps (.sleep cur ws) := by
  obtain ⟨ho, hc, hr, hws⟩ := hl
  obtain ⟨hi, hz⟩ := h.sleeps hc hr ws (o := none) (by simp [hws])
    fun _ _ _ _ hn => by cases hn
  have hw : Function.update w.waiting cur none = w.waiting := by
    rw [← ho]; exact Function.update_eq_self ..
  rw [hw] at hi
  exact ⟨_, none, rfl, hi, .nothing (fun q hq hqz => ⟨hq, (hz q).2 hqz⟩) rfl⟩

/-! ## One pass of `do_wait` -/

/-- What a pass comes to: the process frees a zombie that it waits for, or has no such child.  If
    it has a zombie among them, it frees one, and for `pid ≠ 0` that one. -/
theorem Inv.wait (h : w.Inv) {pid : ℤ} (hl : w.Legal (.wait cur pid)) :
    ∃ w' freed, w.step (.wait cur pid) = some w' ∧ w'.Inv ∧ w.Outcome (.wait cur pid) w' freed ∧
      ∀ q ∈ w.live, (w.procs.pcb q).parent = some cur → pid = 0 ∨ (w.procs.pcb q).pid = pid →
        (w.procs.pcb q).Zombie → ∃ r, freed = some r ∧ (pid ≠ 0 → r = q) := by
  obtain ⟨-, hl⟩ := hl
  obtain ⟨v, hv, hvi⟩ := h.sys.step hl
  obtain ⟨hcl, hcr, hcf⟩ := hl
  have hcard := ProcSys.card_le_fuel h.sys.tree h.sys.forks
  obtain ⟨haskid, o, hs, ho⟩ := h.sys.tree.waitSearch_spec hcard hcl pid
  obtain ⟨haskid', o', hs', hall⟩ := h.sys.tree.waitSearch_all hcard hcl pid
  obtain ⟨rfl, rfl⟩ : haskid' = haskid ∧ o' = o := by simpa [hs] using hs'.symm
  cases o' with
  | some z =>
    obtain ⟨hzl, hzp, hzz⟩ := ho z rfl
    simp only [ProcSys.step, hs, Option.bind_eq_bind, Option.bind_some] at hv
    obtain ⟨⟨r, s⟩, hd, hv⟩ := Option.bind_eq_some_iff.1 hv
    obtain rfl := Option.some.inj hv
    have hd' := hd
    simp only [Procs.doWait, hs, Option.bind_eq_bind, Option.bind_some] at hd'
    split_ifs at hd'
    obtain ⟨s', hrem, hd'⟩ := Option.bind_eq_some_iff.1 hd'
    obtain ⟨hr, rfl⟩ : _ = r ∧ s' = s := by simpa using hd'
    obtain ⟨s₁, hrem₁, -, -, -, -, hfork, -⟩ := h.sys.tree.reap hzl hzz
    obtain rfl : s₁ = s' := by simpa [hrem₁] using hrem
    have hpcb := Procs.removeLinks_pcb hrem
    have hrun : ∀ p, (s₁.pcb p).run = (w.procs.pcb p).run := fun p => (hpcb p).1
    have hzl := (Finset.mem_erase.1 hzl).2
    have c : Calm w { w with
        procs := s₁, live := w.live.erase z, waiting := Function.update w.waiting cur none
        frees := Function.update w.frees z (w.frees z + 1) } := by
      refine ⟨Finset.erase_subset _ _, fun p _ => ?_, fun p _ => (hpcb p).2.1,
        fun p _ => (hpcb p).2.2, fun p _ hp => ?_⟩
      · rw [hrun]; exact .refl _
      · have hpc : p ≠ cur := by
          rintro rfl
          rw [hrun, hcr] at hp; cases hp
        exact Function.update_of_ne hpc ..
    refine ⟨{ w with
        procs := s₁, live := w.live.erase z, waiting := Function.update w.waiting cur none
        frees := Function.update w.frees z (w.frees z + 1) }, some z, ?_,
      ⟨hvi, c.awake h, fun p q hpq => ?_, c.asleep h, c.quiet h, fun p => ?_⟩,
      ⟨fun q hq hz hqz => ?_, fun q => ?_, fun q hq => ?_⟩, fun q hq hqp hpid hz => ?_⟩
    · simp [WaitSys.step, hs, hd, ← hr]
    · simp only [hfork] at hpq
      rw [hrun]; exact h.newborn p q hpq
    · show w.exits p = Function.update w.frees z (w.frees z + 1) p + _
      rw [h.count p]
      by_cases hpz : p = z
      · subst hpz
        rw [if_pos ⟨hzl, hzz⟩, Function.update_self, if_neg (by simp)]
      · simp [hpz, Pcb.Zombie, hrun]
    · have hqz' : q ≠ z := fun he => hqz (he ▸ rfl)
      exact ⟨Finset.mem_erase.2 ⟨hqz', hq⟩, by rw [Pcb.Zombie, hrun]; exact hz⟩
    · by_cases hqz : q = z
      · subst hqz; simp
      · simp [hqz, Ne.symm hqz]
    · obtain rfl := Option.some.inj hq
      exact ⟨hzl, hzz, by simp, cur, pid, rfl, hzp⟩
    · exact ⟨z, rfl, fun hne => (hall q hq hqp hpid).2.2 hne z rfl⟩
  | none =>
    cases haskid' with
    | true =>
      obtain ⟨hi, hz⟩ := h.sleeps hcl hcr wtChild (o := some pid) (by simp)
        fun q hq hqp pid' hp hpid => by
          obtain rfl := Option.some.inj hp
          exact (hall q hq hqp hpid).2.1 rfl
      refine ⟨_, none, ?_, hi, .nothing (fun q hq hqz => ⟨hq, (hz q).2 hqz⟩) rfl,
        fun q hq hqp hpid hz => absurd hz ((hall q hq hqp hpid).2.1 rfl)⟩
      simp [WaitSys.step, Procs.doWait, hs]
    | false =>
      have c : Calm w { w with waiting := Function.update w.waiting cur none } := by
        refine ⟨subset_rfl, fun _ _ => .refl _, fun _ _ => rfl, fun _ _ => rfl, fun p _ hp => ?_⟩
        have hpc : p ≠ cur := by
          rintro rfl
          rw [hcr] at hp; cases hp
        exact Function.update_of_ne hpc ..
      refine ⟨_, none, ?_, h.calm c rfl h.sys h.newborn rfl rfl, c.outcome rfl rfl,
        fun q hq hqp hpid hz => absurd hz ((hall q hq hqp hpid).2.1 rfl)⟩
      simp [WaitSys.step, Procs.doWait, hs]

/-- **One step.** -/
theorem Inv.step (h : w.Inv) (hl : w.Legal op) : w.Steps op := by
  cases op with
  | forkBegin cur q => exact h.forkBegin hl
  | forkFail cur => exact h.forkFail hl
  | forkEnd cur => exact h.forkEnd hl
  | exit cur code => exact h.exit hl
  | wait cur pid =>
    obtain ⟨w', freed, hs, hi, ho, -⟩ := h.wait hl
    exact ⟨w', freed, hs, hi, ho⟩
  | kill cur pid => exact h.kill
  | sleep cur ws => exact h.sleep hl
  | wakeup p => exact h.wakeup hl

/-! ## Runs -/

/-- The processes after `proc_init`, and what can happen to them. -/
def machine (P : Type) [DecidableEq P] : Machine (WaitSys P) (WaitOp P) where
  Init w := (ProcSys.machine P).Init w.toProcSys ∧ (∀ p ∈ w.live, w.flags p = 0) ∧
    (∀ p, w.waiting p = none) ∧ (∀ p, w.exits p = 0) ∧ ∀ p, w.frees p = 0
  Legal := Legal
  step := step

/-- Both processes of `proc_init` run, and no fork is in progress. -/
theorem procInit_runs {L : Links (ProcNode P)} {pcb : P → Pcb P} {idle proc : P} {s : Procs P}
    (hne : idle ≠ proc) (hs : Procs.procInit L pcb idle proc = some s) :
    (s.pcb idle).run = ⟨.runnable, 0⟩ ∧ (s.pcb proc).run = ⟨.runnable, 0⟩ ∧
      ∀ p, s.forking p = none := by
  have t₀ := ProcSys.tree_procInitIdle L pcb idle
  have f₀ := ProcSys.forks_procInitIdle L pcb idle
  obtain ⟨g, hrun, -, -, -, -, -, hs₀⟩ := ProcSys.procInitIdle_spec L pcb idle
  simp only [Procs.procInit] at hs
  rw [hs₀] at hs t₀ f₀
  generalize Procs.initLists L = links at hs t₀ f₀
  set s₀ : Procs P := ⟨links, Function.update pcb idle g, 1, maxPid, maxPid, idle, none,
    fun _ => none⟩ with hs₀'
  have hq : proc ∉ ({idle} : Finset P) := by simpa using hne.symm
  have hf₀ : ∀ p, s₀.forking p = none := fun p => rfl
  have t₁ : (s₀.doForkBegin idle proc).1.Tree {idle} := ProcSys.tree_forkBegin t₀ hq
  have f₁ : ProcSys.Forks (s₀.doForkBegin idle proc).1 {idle} := ProcSys.forks_forkBegin t₀ f₀
    (Finset.mem_singleton_self _) t₀.idleAlive (hf₀ _) hq fun p hp => by simp [hf₀] at hp
  rcases doForkBegin_cases s₀ idle proc with hb | ⟨s₁, hb, hfork, hrun₁, hpcb₁⟩
  · simp [hb] at hs
  rw [hb] at t₁ f₁
  simp only [hb, Bool.not_true, Bool.false_eq_true, if_false] at hs
  obtain ⟨⟨pid, s₂⟩, hs₂, hs⟩ := Option.bind_eq_some_iff.1 hs
  obtain ⟨o, -, hs⟩ := Option.bind_eq_some_iff.1 hs
  have hf₁ : s₁.forking idle = some proc := by simp [hfork]
  obtain ⟨h1, h2, h3⟩ := Procs.doForkEnd_pcb t₁ hf₁ (f₁.child idle proc hf₁).2.1 hrun₁
    (by rw [Finset.card_singleton]; decide) hs₂
  have hfin : s.pcb = s₂.pcb ∧ s.forking = s₂.forking := by
    cases o with
    | none => cases hs
    | some p =>
      simp only at hs
      split_ifs at hs
      obtain rfl := Option.some.inj hs
      exact ⟨rfl, rfl⟩
  rw [hfin.1, hfin.2, h2, hfork]
  refine ⟨?_, h1, fun p => ?_⟩
  · rw [((h3 idle).1 hne).1, hpcb₁ idle hne]
    simp [hs₀', hrun]
  · by_cases hp : p = idle <;> simp [hp, hf₀]

theorem inv_init (h : (machine P).Init w) : w.Inv := by
  obtain ⟨hs, -, hw, he, hf⟩ := h
  have hi := ProcSys.inv_init hs
  obtain ⟨L, pcb, idle, proc, hne, hp, hlive⟩ := hs
  obtain ⟨h1, h2, h3⟩ := procInit_runs hne hp
  have hrun : ∀ p ∈ w.live, (w.procs.pcb p).run = ⟨.runnable, 0⟩ := fun p hp => by
    rw [hlive, Finset.mem_insert, Finset.mem_singleton] at hp
    rcases hp with rfl | rfl
    exacts [h2, h1]
  refine ⟨hi, fun p hp _ => by rw [hrun p hp], fun p q hpq => by simp [h3] at hpq,
    fun p hp hs => by simp [hrun p hp] at hs, fun p hp ha => ?_, fun p => ?_⟩
  · rw [Pcb.Asleep, hrun p hp] at ha; cases ha
  · rw [he, hf, if_neg]
    rintro ⟨hp, hz⟩
    rw [Pcb.Zombie, hrun p hp] at hz; cases hz

theorem reach_inv (h : (machine P).Reach w) : w.Inv :=
  h.invariant (fun _ h => inv_init h) fun _ _ hi hl => by
    obtain ⟨w', -, hs, hi', -⟩ := hi.step hl
    exact ⟨w', hs, hi'⟩

/-- **No child exit is missed.**  Whoever sleeps with `WT_CHILD` is in `do_wait`, and no child it
    waits for is a zombie; what exited is a zombie of the table or has been freed, once; a step
    frees at most one zombie, for its parent in `do_wait`; and a pass of `do_wait` with a zombie to
    wait for frees one. -/
theorem no_missed_child_exit (h : (machine P).Reach w) :
    (∀ p ∈ w.live, (w.procs.pcb p).Asleep → w.waiting p ≠ none ∧
      ∀ q, w.Awaits p q → ¬ (w.procs.pcb q).Zombie) ∧
    (∀ p, w.exits p = w.frees p + if p ∈ w.live ∧ (w.procs.pcb p).Zombie then 1 else 0) ∧
    (∀ op, w.Legal op → ∃ w' freed, w.step op = some w' ∧ w.Outcome op w' freed) ∧
    ∀ cur pid q, w.Legal (.wait cur pid) → q ∈ w.live → (w.procs.pcb q).parent = some cur →
      pid = 0 ∨ (w.procs.pcb q).pid = pid → (w.procs.pcb q).Zombie →
        ∃ w' r, w.step (.wait cur pid) = some w' ∧ w.Outcome (.wait cur pid) w' (some r) ∧
          (pid ≠ 0 → r = q) := by
  have hi := reach_inv h
  refine ⟨fun p hp ha => ⟨?_, hi.quiet p hp ha⟩, hi.count, fun op hl => ?_,
    fun cur pid q hl hq hqp hpid hz => ?_⟩
  · exact (hi.asleep p hp (by rw [ha])).1 (by rw [ha])
  · obtain ⟨w', freed, hs, -, ho⟩ := hi.step hl
    exact ⟨w', freed, hs, ho⟩
  · obtain ⟨w', freed, hs, -, ho, hall⟩ := hi.wait hl
    obtain ⟨r, rfl, hr⟩ := hall q hq hqp hpid hz
    exact ⟨w', r, hs, ho, hr⟩

instance (w : WaitSys P) (p : P) : Decidable (w.Outside p) := inferInstanceAs (Decidable (_ = none))

instance (w : WaitSys P) (p : P) : Decidable (w.Exiting p) := inferInstanceAs (Decidable (_ ≠ _))

instance (w : WaitSys P) : ∀ op, Decidable (w.Legal op)
  | .forkBegin _ _ | .exit _ _ | .wait _ _ | .kill _ _ | .wakeup _ =>
    inferInstanceAs (Decidable (_ ∧ _))
  | .forkFail cur => inferInstanceAs (Decidable (w.toProcSys.Legal (.forkFail cur)))
  | .forkEnd cur => inferInstanceAs (Decidable (w.toProcSys.Legal (.forkEnd cur)))
  | .sleep _ _ => inferInstanceAs (Decidable (_ ∧ _ ∧ _ ∧ _))

instance (w : WaitSys P) (op : WaitOp P) : Decidable ((machine P).Legal w op) :=
  inferInstanceAs (Decidable (w.Legal op))

/-- `initproc` (1) sleeps in `do_wait`; 3 exits, its parent 2 exits, and `initproc` reaps both. -/
theorem no_missed_child_exit_orphan : ∃ w : WaitSys ℕ, (machine ℕ).Reach w ∧ w.live = {0, 1, 2} ∧
    (w.procs.pcb 2).Zombie ∧ w.exits 3 = 1 ∧ w.frees 3 = 1 ∧ w.exits 2 = w.frees 2 + 1 ∧
    ∃ w' r, w.step (.wait 1 0) = some w' ∧ w.Outcome (.wait 1 0) w' (some r) := by
  have h : ((Procs.procInit ⟨id, id⟩ (fun _ => ⟨⟨.uninit, 0⟩, 0, none, 0, none, none, none⟩)
      0 1).bind fun s => ((machine ℕ).run ⟨⟨s, {1, 0}⟩, fun _ => 0, fun _ => none, fun _ => 0,
        fun _ => 0⟩ [.forkBegin 1 2, .forkEnd 1, .forkBegin 2 3, .forkEnd 2, .wait 1 0, .exit 3 0,
          .exit 2 0, .wait 1 0]).bind fun w =>
      if w.live = {0, 1, 2} ∧ (w.procs.pcb 2).Zombie ∧ w.exits 3 = 1 ∧ w.frees 3 = 1 ∧
        (w.procs.pcb 2).parent = some 1 ∧ w.Legal (.wait 1 0) then some () else none) =
          some () := by decide +kernel
  obtain ⟨s, hs, h⟩ := Option.bind_eq_some_iff.1 h
  obtain ⟨w, hw, h⟩ := Option.bind_eq_some_iff.1 h
  split_ifs at h with hc
  obtain ⟨h1, h2, h3, h4, h5, h6⟩ := hc
  have hr : (machine ℕ).Reach ⟨⟨s, {1, 0}⟩, fun _ => 0, fun _ => none, fun _ => 0, fun _ => 0⟩ :=
    .init ⟨⟨_, _, 0, 1, by decide, hs, rfl⟩, fun _ _ => rfl, fun _ => rfl, fun _ => rfl,
      fun _ => rfl⟩
  have hm : 2 ∈ w.live := by rw [h1]; decide
  obtain ⟨-, g2, -, g4⟩ := no_missed_child_exit (hr.run hw)
  obtain ⟨w', r, hs', ho, -⟩ := g4 1 0 2 h6 hm h5 (Or.inl rfl) h2
  exact ⟨w, hr.run hw, h1, h2, h3, h4, by rw [g2 2, if_pos ⟨hm, h2⟩], w', r, hs', ho⟩

end WaitSys

end Ucore
