/-
  Runs of the process table.

  `ProcSys` is the process table and the processes not yet reaped (`live`).  The steps are the two
  halves of `do_fork` (its allocations may sleep), `do_exit`, one pass of `do_wait`, and whatever
  else puts processes to sleep and wakes them.

  * `ProcSys.Inv.step`: a legal step does not fail and keeps the table consistent;
  * `Forks.bound`: forks in progress were let in one by one, so that pids never run out;
  * `ProcSys.process_table_consistent`: what holds in every state reached.
-/
import Ucore.Process.TreeExit
import Ucore.Lib.Machine

namespace Ucore

open Intrusive

set_option linter.unusedSectionVars false

variable {P : Type} [DecidableEq P]

/-- The process table, and the processes that have been forked but not reaped. -/
structure ProcSys (P : Type) where
  procs : Procs P
  live : Finset P

inductive ProcOp (P : Type) where
  | forkBegin (current proc : P)
  | forkFail (current : P)
  | forkEnd (current : P)
  | exit (current : P) (errorCode : ℤ)
  | wait (current : P) (pid : ℤ)
  /-- A process goes to sleep, or is woken. -/
  | other (p : P) (g : Proc)

namespace ProcSys

/-- The forks in progress: their number leaves room for their pids, and their children are not in
    the table yet. -/
structure Forks (s : Procs P) (live : Finset P) : Prop where
  bound : ∃ F : Finset P, (∀ p, p ∈ F ↔ s.forking p ≠ none) ∧ F ⊆ live ∧
    s.nrProcess + F.card ≤ 2 * maxProcess - 2
  child : ∀ p q, s.forking p = some q → q ∉ live ∧ (s.pcb q).parent = some p ∧
    (s.pcb q).run.state ≠ .zombie ∧ (s.pcb q).cptr = none ∧ (s.pcb p).run.state ≠ .zombie ∧
    ∀ p', s.forking p' = some q → p' = p

def step (w : ProcSys P) : ProcOp P → Option (ProcSys P)
  | .forkBegin cur q => some { w with procs := (w.procs.doForkBegin cur q).1 }
  | .forkFail cur => some { w with procs := w.procs.doForkFail cur }
  | .forkEnd cur => do
    let q ← w.procs.forking cur
    let (_, s) ← w.procs.doForkEnd cur
    some ⟨s, insert q w.live⟩
  | .exit cur code => do
    let s ← w.procs.doExit cur code
    some { w with procs := s }
  | .wait cur pid => do
    let (_, found) ← w.procs.waitSearch cur pid
    let (_, s) ← w.procs.doWait cur pid
    some ⟨s, match found with
      | some q => w.live.erase q
      | none => w.live⟩
  | .other p g => some { w with procs := w.procs.setRun p g }

/-- The process runs, and is not inside a `do_fork`. -/
def Runs (w : ProcSys P) (p : P) : Prop :=
  p ∈ w.live ∧ (w.procs.pcb p).run.state = .runnable ∧ w.procs.forking p = none

/-- `proc` is memory that no process structure occupies. -/
def Fresh (w : ProcSys P) (proc : P) : Prop :=
  proc ∉ w.live ∧ ∀ p ∈ w.live, w.procs.forking p ≠ some proc

/-- Running processes make system calls; `idleproc` and `initproc` do not exit; sleeping and waking
    up is for processes that have not exited. -/
def Legal (w : ProcSys P) : ProcOp P → Prop
  | .forkBegin cur q => w.Runs cur ∧ w.Fresh q
  | .forkFail cur | .forkEnd cur => w.procs.forking cur ≠ none
  | .exit cur _ => w.Runs cur ∧ cur ≠ w.procs.idleproc ∧ some cur ≠ w.procs.initproc
  | .wait cur _ => w.Runs cur
  | .other p g => p ∈ w.live ∧ (w.procs.pcb p).run.state ≠ .zombie ∧ g.state ≠ .zombie

structure Inv (w : ProcSys P) : Prop where
  tree : w.procs.Tree w.live
  init : ∃ i, w.procs.initproc = some i ∧ i ∈ w.live.erase w.procs.idleproc ∧
    (w.procs.pcb i).parent = some w.procs.idleproc ∧ (w.procs.pcb i).run.state ≠ .zombie
  forks : Forks w.procs w.live

variable {w w' : ProcSys P} {s s' : Procs P} {live : Finset P} {p q cur : P} {op : ProcOp P}

theorem maxProcess_eq : maxProcess = 4096 := rfl

/-- There are never more processes than pids. -/
theorem card_le (t : s.Tree live) (f : Forks s live) : (live.card : ℤ) ≤ 2 * maxProcess - 2 := by
  obtain ⟨F, -, -, hb⟩ := f.bound
  have := t.count
  omega

theorem card_le_fuel (t : s.Tree live) (f : Forks s live) : live.card ≤ Procs.fuel := by
  have h1 := card_le t f
  have h2 : Procs.fuel = 16384 := rfl
  rw [maxProcess_eq] at h1; omega

/-! ## Fork -/

theorem pcb_allocProc_ne (h : p ≠ q) : (s.allocProc q).pcb p = s.pcb p := by
  simp [Procs.allocProc, h]

/-- The first half of `do_fork`. -/
theorem tree_forkBegin (t : s.Tree live) (hq : q ∉ live) :
    (s.doForkBegin cur q).1.Tree live := by
  simp only [Procs.doForkBegin]
  split_ifs
  · exact t
  · have hne : ∀ p ∈ live, p ≠ q := by rintro p hp rfl; exact hq hp
    refine t.congr ⟨rfl, rfl, rfl, rfl, rfl⟩ (fun p hp => ?_) fun p hp => ?_
    · simp [Procs.allocProc, hne p hp]
    · simp [Procs.allocProc, hne p hp]

theorem forks_forkBegin (t : s.Tree live) (f : Forks s live) (hcur : cur ∈ live)
    (hcz : (s.pcb cur).run.state ≠ .zombie) (hf : s.forking cur = none) (hq : q ∉ live)
    (hfr : ∀ p, s.forking p ≠ some q) : Forks (s.doForkBegin cur q).1 live := by
  simp only [Procs.doForkBegin]
  split_ifs with hmax
  · exact f
  · obtain ⟨F, hF, hsub, hb⟩ := f.bound
    refine ⟨⟨insert cur F, fun p => ?_, Finset.insert_subset hcur hsub, ?_⟩, fun p r hp => ?_⟩
    · by_cases hpc : p = cur
      · subst hpc; simp
      · simp [hpc, hF, Procs.allocProc, Procs.setPcb, Procs.setParent]
    · -- no more forks are in progress than there are processes
      have h1 := Finset.card_le_card (Finset.insert_subset hcur hsub)
      have h2 := t.count
      rw [maxProcess_eq] at hmax ⊢
      show s.nrProcess + _ ≤ _
      omega
    · by_cases hpc : p = cur
      · subst hpc
        obtain rfl : q = r := by simpa using hp
        have hpq : p ≠ q := by rintro rfl; exact hq hcur
        refine ⟨hq, by simp [Procs.allocProc], by simp [Procs.allocProc],
          by simp [Procs.allocProc], by simpa [Procs.allocProc, hpq] using hcz, fun p' hp' => ?_⟩
        by_contra hne
        exact hfr p' (by simpa [hne, Procs.allocProc, Procs.setParent, Procs.setPcb] using hp')
      · have hp' : s.forking p = some r := by
          simpa [hpc, Procs.allocProc, Procs.setParent, Procs.setPcb] using hp
        obtain ⟨h1, h2, h3, h4, h5, h6⟩ := f.child p r hp'
        have hrq : r ≠ q := by rintro rfl; exact hfr p hp'
        have hpq : p ≠ q := by
          rintro rfl
          exact hq (hsub ((hF p).2 (by simp [hp'])))
        refine ⟨h1, by simpa [Procs.allocProc, hrq] using h2,
          by simpa [Procs.allocProc, hrq] using h3, by simpa [Procs.allocProc, hrq] using h4,
          by simpa [Procs.allocProc, hpq] using h5, fun p' hp'' => ?_⟩
        by_cases hpc' : p' = cur
        · subst hpc'
          exact absurd (by simpa using hp'') hrq.symm
        · exact h6 p' (by simpa [hpc', Procs.allocProc, Procs.setParent, Procs.setPcb] using hp'')

/-- The second half of `do_fork`. -/
theorem forkEnd_spec (t : s.Tree live) (f : Forks s live) (hf : s.forking cur = some q) :
    ∃ pid s', s.doForkEnd cur = some (pid, s') ∧ s'.Tree (insert q live) ∧
      Forks s' (insert q live) ∧ s'.idleproc = s.idleproc ∧ s'.initproc = s.initproc ∧
      (s'.pcb q).pid = pid ∧ (s'.pcb q).parent = some cur ∧ (s'.pcb q).run.state = .runnable ∧
      ∀ p ∈ live, (s'.pcb p).parent = (s.pcb p).parent ∧ (s'.pcb p).run = (s.pcb p).run := by
  obtain ⟨hq, hp, hst, hcq, hcz, huniq⟩ := f.child cur q hf
  obtain ⟨F, hF, hsub, hb⟩ := f.bound
  have hcF : cur ∈ F := (hF cur).2 (by simp [hf])
  have hcard : (live.card : ℤ) < maxPid := by
    have := card_le t f
    simp only [maxPid]; rw [maxProcess_eq] at *; omega
  obtain ⟨pid, safe, g, s', hs', hg, hpid, ⟨t1, t2, t3, t4, t5, t6, t7⟩, hpcb⟩ :=
    Procs.doForkEnd_spec t hf hp hst hcard
  have hne : ∀ p ∈ live, p ≠ q := by rintro p hpl rfl; exact hq hpl
  refine ⟨pid, s', hs', t.fork hq (hsub hcF) hcz hp hcq hg hpid ⟨t1, t2, t3, t4, t5⟩ hpcb,
    ⟨⟨F.erase cur, fun p => ?_, fun p hp => ?_, ?_⟩, fun p r hpr => ?_⟩, t5, t6, by simp [hpcb],
    by simp [hpcb, hp], by simp [hpcb, hg], fun p hpl => by simp [hpcb, hne p hpl]⟩
  · rw [t7]
    by_cases hpc : p = cur
    · simp [hpc]
    · simp [hpc, hF]
  · exact Finset.mem_insert_of_mem (hsub (Finset.mem_erase.1 hp).2)
  · have hpos := Finset.card_pos.2 ⟨cur, hcF⟩
    rw [t2, Finset.card_erase_of_mem hcF]
    show s.nrProcess + 1 + _ ≤ _
    omega
  · rw [t7] at hpr
    have hpc : p ≠ cur := by rintro rfl; simp at hpr
    have hpr : s.forking p = some r := by simpa [hpc] using hpr
    obtain ⟨h1, h2, h3, h4, h5, h6⟩ := f.child p r hpr
    have hrq : r ≠ q := fun h => hpc (huniq p (h ▸ hpr))
    have hpq : p ≠ q := hne p (hsub ((hF p).2 (by simp [hpr])))
    have hrc : r ≠ cur := by rintro rfl; exact h1 (hsub hcF)
    refine ⟨by simp [hrq, h1], by simpa [hpcb] using h2, by simpa [hpcb, hrq] using h3,
      by simpa [hpcb, hrc] using h4, by simpa [hpcb, hpq] using h5, fun p' hp' => ?_⟩
    rw [t7] at hp'
    have hpc' : p' ≠ cur := by rintro rfl; simp at hp'
    exact h6 p' (by simpa [hpc'] using hp')

/-! ## Steps -/

/-- A step that leaves the forks in progress alone. -/
theorem Forks.congr (f : Forks s live) {live' : Finset P} (hf : s'.forking = s.forking)
    (hn : s'.nrProcess ≤ s.nrProcess) (hl : ∀ p, s.forking p ≠ none → p ∈ live → p ∈ live')
    (hl' : live' ⊆ live)
    (hp : ∀ p, p ∉ live → (s'.pcb p).run = (s.pcb p).run ∧ (s'.pcb p).cptr = (s.pcb p).cptr ∧
      (s'.pcb p).parent = (s.pcb p).parent)
    (hz : ∀ p, s.forking p ≠ none → (s'.pcb p).run.state = .zombie →
      (s.pcb p).run.state = .zombie) : Forks s' live' := by
  obtain ⟨F, hF, hsub, hb⟩ := f.bound
  refine ⟨⟨F, fun p => by rw [hf]; exact hF p, fun p hp => hl p ((hF p).1 hp) (hsub hp), by omega⟩,
    fun p q hpq => ?_⟩
  rw [hf] at hpq
  obtain ⟨h1, h2, h3, h4, h5, h6⟩ := f.child p q hpq
  obtain ⟨g1, g2, g3⟩ := hp q h1
  exact ⟨fun hm => h1 (hl' hm), by rw [g3, h2], by rw [g1]; exact h3, by rw [g2, h4],
    fun hzp => h5 (hz p (by simp [hpq]) hzp), by rw [hf]; exact h6⟩

/-- **One step.** -/
theorem Inv.step (h : w.Inv) (hl : w.Legal op) : ∃ w', w.step op = some w' ∧ w'.Inv := by
  obtain ⟨t, ⟨i, hi, hil, hip, hiz⟩, f⟩ := h
  have hfuel := card_le_fuel t f
  obtain ⟨hii, hilv⟩ := Finset.mem_erase.1 hil
  cases op with
  | forkBegin cur q =>
    obtain ⟨⟨hcl, hcr, hcf⟩, hq, hfr⟩ := hl
    have hfr' : ∀ p, w.procs.forking p ≠ some q := fun p hp => by
      obtain ⟨F, hF, hsub, -⟩ := f.bound
      exact hfr p (hsub ((hF p).2 (by simp [hp]))) hp
    have hiq : i ≠ q := by rintro rfl; exact hq hilv
    refine ⟨_, rfl, tree_forkBegin t hq, ⟨i, ?_, ?_, ?_, ?_⟩,
      forks_forkBegin t f hcl (by simp [hcr]) hcf hq hfr'⟩
    all_goals
      simp only [Procs.doForkBegin]
      split_ifs
    · exact hi
    · exact hi
    · exact hil
    · exact hil
    · exact hip
    · simpa [hiq, pcb_allocProc_ne] using hip
    · exact hiz
    · simpa [hiq, pcb_allocProc_ne] using hiz
  | forkFail cur =>
    refine ⟨_, rfl, t.congr ⟨rfl, rfl, rfl, rfl, rfl⟩ (fun p _ => ⟨rfl, rfl, rfl, rfl, rfl⟩)
      fun p _ hz => hz, ⟨i, hi, hil, hip, hiz⟩, ?_⟩
    obtain ⟨F, hF, hsub, hb⟩ := f.bound
    refine ⟨⟨F.erase cur, fun p => ?_, fun p hp => hsub (Finset.mem_erase.1 hp).2, ?_⟩,
      fun p q hpq => ?_⟩
    · by_cases hpc : p = cur
      · simp [hpc, Procs.doForkFail]
      · simp [hpc, Procs.doForkFail, hF]
    · have := Finset.card_erase_le (s := F) (a := cur)
      simp only [Procs.doForkFail]; omega
    · have hpc : p ≠ cur := by rintro rfl; simp [Procs.doForkFail] at hpq
      obtain ⟨h1, h2, h3, h4, h5, h6⟩ := f.child p q (by simpa [Procs.doForkFail, hpc] using hpq)
      refine ⟨h1, h2, h3, h4, h5, fun p' hp' => ?_⟩
      have hpc' : p' ≠ cur := by rintro rfl; simp [Procs.doForkFail] at hp'
      exact h6 p' (by simpa [Procs.doForkFail, hpc'] using hp')
  | forkEnd cur =>
    obtain ⟨q, hq⟩ := Option.ne_none_iff_exists'.1 hl
    obtain ⟨pid, s', hs', t', f', h1, h2, -, -, -, h3⟩ := forkEnd_spec t f hq
    refine ⟨⟨s', insert q w.live⟩, by simp only [ProcSys.step, hq, hs', Option.bind_eq_bind,
      Option.bind_some], t', ⟨i, by simp only [h2, hi], ?_, ?_, ?_⟩, f'⟩
    · simp only [h1]; exact Finset.mem_erase.2 ⟨hii, Finset.mem_insert_of_mem hilv⟩
    · simp only [h1, (h3 i hilv).1, hip]
    · simp only [(h3 i hilv).2]; exact hiz
  | exit cur code =>
    obtain ⟨⟨hcl, hcr, hcf⟩, hci, hcn⟩ := hl
    rw [hi, ne_eq, Option.some.injEq] at hcn
    obtain ⟨s', hs', t', ⟨t1, t2, t3, t4, t5, t6, t7⟩, hip', hiz', hrest⟩ :=
      t.exit hfuel (Finset.mem_erase.2 ⟨hci, hcl⟩) hi hilv hip hiz hcn code
    refine ⟨⟨s', w.live⟩, by simp only [ProcSys.step, hs', Option.bind_eq_bind, Option.bind_some],
      t', ⟨i, by simp only [t6, hi], by simpa only [t5] using hil, by simp only [t5, hip'], hiz'⟩,
      f.congr t7 t2.le (fun _ _ hp => hp) subset_rfl (fun p hp => (hrest p).2 hp) fun p hp hz => ?_⟩
    rcases (hrest p).1 hz with rfl | hz
    exacts [absurd hcf hp, hz]
  | wait cur pid =>
    obtain ⟨hcl, hcr, hcf⟩ := hl
    obtain ⟨haskid, o, hs, ho⟩ := t.waitSearch_spec hfuel hcl pid
    cases o with
    | some q =>
      obtain ⟨hql, hqp, hqz⟩ := ho q rfl
      obtain ⟨s', hs', t', h1, h2, h3, h4, h5⟩ := t.reap hql hqz
      have hqi : q ≠ i := by rintro rfl; exact hiz hqz
      have hni : ¬ (q = w.procs.idleproc ∨ some q = w.procs.initproc) := by
        rw [hi, Option.some.injEq]
        exact not_or.2 ⟨(Finset.mem_erase.1 hql).1, hqi⟩
      refine ⟨⟨s', w.live.erase q⟩, ?_, t', ⟨i, by simp only [h3, hi], ?_, ?_, ?_⟩,
        f.congr h4 (by simp only [h1]; omega) (fun p hp hpl => ?_) (Finset.erase_subset _ _)
          (fun p hp => by simp [(h5 p).2.2 hp]) fun p _ hz => by rwa [(h5 p).1] at hz⟩
      · simp only
          [ProcSys.step, Procs.doWait, hs, Option.bind_eq_bind, Option.bind_some, if_neg hni,
          hs']
      · simp only [h2]; exact Finset.mem_erase.2 ⟨hii, Finset.mem_erase.2 ⟨hqi.symm, hilv⟩⟩
      · simp only [h2, (h5 i).2.1, hip]
      · simp only [(h5 i).1]; exact hiz
      · refine Finset.mem_erase.2 ⟨?_, hpl⟩
        rintro rfl
        obtain ⟨r, hr⟩ := Option.ne_none_iff_exists'.1 hp
        exact (f.child p r hr).2.2.2.2.1 hqz
    | none =>
      cases haskid with
      | false =>
        exact ⟨w, by simp only [ProcSys.step, Procs.doWait, hs, Option.bind_eq_bind,
          Option.bind_some], t, ⟨i, hi, hil, hip, hiz⟩, f⟩
      | true =>
        refine ⟨⟨w.procs.setRun cur ⟨.sleeping, wtChild⟩, w.live⟩, by simp only [ProcSys.step,
          Procs.doWait, hs, Option.bind_eq_bind, Option.bind_some],
          t.congr ⟨rfl, rfl, rfl, rfl, rfl⟩ (fun p _ => by simp) fun p _ hz => ?_,
          ⟨i, hi, hil, by simpa using hip, ?_⟩, f.congr rfl le_rfl (fun _ _ hp => hp) subset_rfl
            (fun p hp => ?_) fun p _ hz => ?_⟩
        · simp only [Procs.pcb_setRun] at hz; split_ifs at hz; exact hz
        · simp only [Procs.pcb_setRun]; split_ifs
          exacts [by simp, hiz]
        · have : p ≠ cur := by rintro rfl; exact hp hcl
          simp [this]
        · simp only [Procs.pcb_setRun] at hz; split_ifs at hz; exact hz
  | other p g =>
    obtain ⟨hpl, hpz, hgz⟩ := hl
    refine ⟨_, rfl, t.congr ⟨rfl, rfl, rfl, rfl, rfl⟩ (fun p _ => by simp) fun r _ hz => ?_,
      ⟨i, hi, hil, by simpa using hip, ?_⟩, f.congr rfl le_rfl (fun _ _ hp => hp) subset_rfl
        (fun r hr => ?_) fun r _ hz => ?_⟩
    · simp only [Procs.pcb_setRun] at hz; split_ifs at hz
      exacts [absurd hz hgz, hz]
    · simp only [Procs.pcb_setRun]; split_ifs
      exacts [hgz, hiz]
    · have : r ≠ p := by rintro rfl; exact hr hpl
      simp [this]
    · simp only [Procs.pcb_setRun] at hz; split_ifs at hz
      exacts [absurd hz hgz, hz]

/-! ## The start -/

/-- All list heads are empty lists. -/
theorem circ_initLists (L : Links (ProcNode P)) : Circ (Procs.initLists L) .procList [] ∧
    ∀ i < 2 ^ hashShift, Circ (Procs.initLists L) (.hashList i) [] := by
  have hinj : Function.Injective (ProcNode.hashList (P := P)) := fun a b h => by simpa using h
  exact ⟨circ_foldl_listInit hinj _ _ _ (by simp) (circ_listInit L _),
    fun i hi => circ_foldl_listInit_mem hinj _ _ (List.mem_range.2 hi)⟩

theorem procInitIdle_spec (L : Links (ProcNode P)) (pcb : P → Pcb P) (idle : P) :
    ∃ g, g.run = ⟨.runnable, 0⟩ ∧ g.pid = 0 ∧ g.parent = none ∧ g.cptr = none ∧ g.yptr = none ∧
      g.optr = none ∧ Procs.procInitIdle L pcb idle =
        ⟨Procs.initLists L, Function.update pcb idle g, 1, maxPid, maxPid, idle, none,
          fun _ => none⟩ := by
  unfold Procs.procInitIdle
  -- the list heads stay folded
  generalize Procs.initLists L = links
  refine ⟨⟨⟨.runnable, 0⟩, 0, none, (pcb idle).exitCode, none, none, none⟩, rfl, rfl, rfl, rfl, rfl,
    rfl, ?_⟩
  simp [Procs.allocProc, Procs.setRun, Procs.setPid, Procs.setPcb]

theorem tree_procInitIdle (L : Links (ProcNode P)) (pcb : P → Pcb P) (idle : P) :
    (Procs.procInitIdle L pcb idle).Tree {idle} := by
  obtain ⟨h1, h2⟩ := circ_initLists L
  obtain ⟨g, hrun, hpid, hpar, hc, hy, ho, hs⟩ := procInitIdle_spec L pcb idle
  rw [hs]
  generalize Procs.initLists L = links at h1 h2
  have he : ({idle} : Finset P).erase idle = ∅ := by simp
  have hg : Function.update pcb idle g idle = g := Function.update_self ..
  refine
    ⟨Finset.mem_singleton_self _, ?_, ?_, ⟨[], h1, by simp⟩, fun i hi => ⟨[], h2 i hi, by simp⟩,
    fun p hp => ?_, by simp, fun p hp _ => ?_, ?_, by simp, by simp, by simp, ?_, ?_⟩
  · simp [hpar]
  · simp [hrun]
  · obtain rfl := Finset.mem_singleton.1 hp
    refine ⟨[], ⟨?_, by simp⟩, fun q => ?_⟩
    · simp [Chain, hc]
    · simp only [List.not_mem_nil, Finset.mem_singleton, false_iff, not_and]
      rintro rfl
      simp [hpar]
  · obtain rfl := Finset.mem_singleton.1 hp
    simp [hc]
  · simp
  · show (0 : ℤ) ≤ maxPid; decide
  · show maxPid ≤ maxPid; exact le_rfl

theorem forks_procInitIdle (L : Links (ProcNode P)) (pcb : P → Pcb P) (idle : P) :
    Forks (Procs.procInitIdle L pcb idle) {idle} := by
  obtain ⟨g, -, -, -, -, -, -, hs⟩ := procInitIdle_spec L pcb idle
  rw [hs]
  generalize Procs.initLists L = links
  refine ⟨⟨∅, fun p => ?_, by simp, ?_⟩, fun p q h => ?_⟩
  · simp
  · show (1 : ℤ) + ((∅ : Finset P).card : ℤ) ≤ _
    rw [Finset.card_empty]; decide
  · simp at h

/-- The process table after `proc_init`, and what can happen to it. -/
def machine (P : Type) [DecidableEq P] : Machine (ProcSys P) (ProcOp P) where
  Init w := ∃ L pcb idle proc, idle ≠ proc ∧ Procs.procInit L pcb idle proc = some w.procs ∧
    w.live = {proc, idle}
  Legal := Legal
  step := step

theorem inv_init (h : (machine P).Init w) : w.Inv := by
  obtain ⟨L, pcb, idle, proc, hne, hs, hlive⟩ := h
  have t₀ := tree_procInitIdle L pcb idle
  have f₀ := forks_procInitIdle L pcb idle
  set s₀ := Procs.procInitIdle L pcb idle with hs₀
  have hid : s₀.idleproc = idle := rfl
  have hnr : ¬ s₀.nrProcess ≥ maxProcess := by show ¬ (0 : ℤ) + 1 ≥ maxProcess; decide
  have hq : proc ∉ ({idle} : Finset P) := by simpa using hne.symm
  have t₁ : (s₀.doForkBegin idle proc).1.Tree {idle} := tree_forkBegin t₀ hq
  have hf₀ : ∀ p, s₀.forking p = none := fun p => rfl
  have f₁ : Forks (s₀.doForkBegin idle proc).1 {idle} := forks_forkBegin t₀ f₀
    (Finset.mem_singleton_self _) t₀.idleAlive (hf₀ _) hq fun p hp => by simp [hf₀] at hp
  have hbegin : (s₀.doForkBegin idle proc).1.forking idle = some proc ∧
      (s₀.doForkBegin idle proc).1.idleproc = idle ∧ (s₀.doForkBegin idle proc).2 = true := by
    simp [Procs.doForkBegin, hnr, hid]
  generalize hb : s₀.doForkBegin idle proc = b at t₁ f₁ hbegin
  obtain ⟨s₁, ok⟩ := b
  obtain ⟨hfork, hid₁, rfl⟩ := hbegin
  obtain ⟨pid, s₂, hs₂, t₂, f₂, h1, h2, h3, h4, h5, h6⟩ := forkEnd_spec t₁ f₁ hfork
  have hidle : s₂.idleproc = idle := h1.trans hid₁
  have hmem : proc ∈ ({proc, idle} : Finset P).erase s₂.idleproc := by
    rw [hidle]; exact Finset.mem_erase.2 ⟨hne.symm, by simp⟩
  obtain ⟨o, ho, hop⟩ := t₂.findProc_spec (card_le_fuel t₂ f₂) pid
  obtain rfl : o = some proc := (hop proc).2 ⟨hmem, h3⟩
  simp only [Procs.procInit, ← hs₀, hb, Bool.not_true, Bool.false_eq_true, if_false, hs₂, ho,
    Option.bind_eq_bind, Option.bind_some] at hs
  split_ifs at hs
  obtain ⟨s, live⟩ := w
  simp only [Option.some.injEq] at hs hlive
  subst hs hlive
  exact ⟨t₂.congr ⟨rfl, rfl, rfl, rfl, rfl⟩ (fun p _ => ⟨rfl, rfl, rfl, rfl, rfl⟩) fun p _ hz => hz,
    ⟨proc, rfl, hmem, by simp only [h4, hidle], by simp only [h5]; simp⟩, f₂.bound, f₂.child⟩

theorem reach_inv (h : (machine P).Reach w) : w.Inv :=
  h.invariant (fun _ h => inv_init h) fun _ _ hi hl => hi.step hl

/-! ## The process table -/

/-- The families: from `cptr`, `optr` leads through the children of each process, and `yptr`
    back. -/
def FamiliesOk (w : ProcSys P) : Prop :=
  (∀ p ∈ w.live, ∃ qs, w.procs.Siblings none (w.procs.pcb p).cptr qs ∧ qs.Nodup ∧
    ∀ q, q ∈ qs ↔ q ∈ w.live ∧ (w.procs.pcb q).parent = some p) ∧
  ∀ q ∈ w.live.erase w.procs.idleproc, ∀ r ∈ w.live.erase w.procs.idleproc,
    (w.procs.pcb q).optr = some r ↔ (w.procs.pcb r).yptr = some q

/-- The process list and the hash table hold every process but `idleproc` once, under its pid. -/
def ListsOk (w : ProcSys P) : Prop :=
  (∃ ps : List P, Circ w.procs.links .procList (ps.map .listLink) ∧ ps.Nodup ∧
    ∀ p, p ∈ ps ↔ p ∈ w.live.erase w.procs.idleproc) ∧
  ∀ i < 2 ^ hashShift, ∃ ps : List P, Circ w.procs.links (.hashList i) (ps.map .hashLink) ∧
    ps.Nodup ∧ ∀ p, p ∈ ps ↔ p ∈ w.live.erase w.procs.idleproc ∧
      pidHashfn (w.procs.pcb p).pid = i

theorem Inv.families (h : w.Inv) : w.FamiliesOk := by
  have t := h.tree
  refine ⟨fun p hp => ?_, fun q hq r hr => ?_⟩
  · obtain ⟨qs, ⟨hc, hnd⟩, hqs⟩ := t.kids p hp
    exact ⟨qs, hc, hnd, hqs⟩
  · have hch : ∀ x ∈ w.live.erase w.procs.idleproc, ∃ p qs, x ∈ qs ∧
        w.procs.Siblings none (w.procs.pcb p).cptr qs := fun x hx => by
      obtain ⟨p, hp, hxp, -⟩ := t.parent x hx
      obtain ⟨qs, ⟨hc, -⟩, hqs⟩ := t.kids p hp
      exact ⟨p, qs, (hqs x).2 ⟨(Finset.mem_erase.1 hx).2, hxp⟩, hc⟩
    constructor
    · intro hqr
      obtain ⟨p, qs, hm, hc⟩ := hch q hq
      exact (hc.next_mem hm hqr).2
    · intro hrq
      obtain ⟨p, qs, hm, hc⟩ := hch r hr
      exact (hc.prev_mem hm hrq).2

theorem Inv.lists (h : w.Inv) : w.ListsOk := by
  obtain ⟨ps, hc, hps⟩ := h.tree.list
  refine ⟨⟨ps, hc, Procs.nodup_of_map hc, hps⟩, fun i hi => ?_⟩
  obtain ⟨qs, hc, hqs⟩ := h.tree.hash i hi
  exact ⟨qs, hc, Procs.nodup_of_map hc, hqs⟩

/-- **The process table is consistent** in every state reached: the families, the process list and
    the hash table are those of the processes not yet reaped, no two of these share a pid,
    `nr_process` counts them, and no legal step fails. -/
theorem process_table_consistent (h : (machine P).Reach w) :
    w.FamiliesOk ∧ w.ListsOk ∧
    (∀ p ∈ w.live.erase w.procs.idleproc, ∀ q ∈ w.live.erase w.procs.idleproc,
      (w.procs.pcb p).pid = (w.procs.pcb q).pid → p = q) ∧
    w.procs.idleproc ∈ w.live ∧ w.procs.nrProcess = w.live.card ∧
    ∀ op, w.Legal op → ∃ w', w.step op = some w' := by
  have hi := reach_inv h
  refine ⟨hi.families, hi.lists, hi.tree.pidInj, hi.tree.idle, hi.tree.count, fun op hl => ?_⟩
  obtain ⟨w', hw', -⟩ := hi.step hl
  exact ⟨w', hw'⟩

instance (w : ProcSys P) (p : P) : Decidable (w.Runs p) := inferInstanceAs (Decidable (_ ∧ _ ∧ _))

instance (w : ProcSys P) (p : P) : Decidable (w.Fresh p) := inferInstanceAs (Decidable (_ ∧ _))

instance (w : ProcSys P) : ∀ op, Decidable (w.Legal op)
  | .forkBegin _ _ => inferInstanceAs (Decidable (_ ∧ _))
  | .forkFail _ | .forkEnd _ => inferInstanceAs (Decidable (_ ≠ _))
  | .exit _ _ => inferInstanceAs (Decidable (_ ∧ _ ∧ _))
  | .wait _ _ => inferInstanceAs (Decidable (w.Runs _))
  | .other _ _ => inferInstanceAs (Decidable (_ ∧ _ ∧ _))

instance (w : ProcSys P) (op : ProcOp P) : Decidable ((machine P).Legal w op) :=
  inferInstanceAs (Decidable (w.Legal op))

/-- Process 2 forks 3 and 4 and exits; 3 exits, and `initproc` (1) reaps 2. -/
theorem process_table_consistent_orphans : ∃ w, (machine ℕ).Reach w ∧
    w.live = {0, 1, 3, 4} ∧ (w.procs.pcb 1).cptr = some 3 ∧ (w.procs.pcb 3).optr = some 4 ∧
    w.FamiliesOk ∧ w.ListsOk ∧ w.procs.nrProcess = w.live.card := by
  have h : ((Procs.procInit ⟨id, id⟩ (fun _ => ⟨⟨.uninit, 0⟩, 0, none, 0, none, none, none⟩)
      0 1).bind fun s => ((machine ℕ).run ⟨s, {1, 0}⟩ [.forkBegin 1 2, .forkEnd 1, .forkBegin 2 3,
        .forkEnd 2, .forkBegin 2 4, .forkEnd 2, .exit 2 0, .exit 3 0, .wait 1 2]).bind fun w =>
      if w.live = {0, 1, 3, 4} ∧ (w.procs.pcb 1).cptr = some 3 ∧ (w.procs.pcb 3).optr = some 4 then
        some () else none) = some () := by decide +kernel
  obtain ⟨s, hs, h⟩ := Option.bind_eq_some_iff.1 h
  obtain ⟨w, hw, h⟩ := Option.bind_eq_some_iff.1 h
  split_ifs at h with hc
  obtain ⟨h1, h2, h3⟩ := hc
  have hr : (machine ℕ).Reach ⟨s, {1, 0}⟩ := .init ⟨_, _, 0, 1, by decide, hs, rfl⟩
  obtain ⟨g1, g2, -, -, g5, -⟩ := process_table_consistent (hr.run hw)
  exact ⟨w, hr.run hw, h1, h2, h3, g1, g2, g5⟩

end ProcSys

end Ucore
