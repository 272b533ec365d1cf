/-
  `kern/process/proc.c` of lab 4: `get_pid`, `do_fork` and the limit on processes.

  `do_exit` panics in this lab, so no process structure is given back.  The process list is the
  list of its processes, the one added last first.

  * `doFork_cases`: what one `do_fork` does to the list, and what it leaves alone;
  * `PidInv`: the pids in the list are different, none lies strictly between `last_pid` and
    `next_safe`, and `nr_process` is 1;
  * `getPid_fresh`, `getPid_ends`: `get_pid` can only return a pid that is free, and it ends if
    there is one;
  * `process_limit`: when the three parts of the limit on processes hold, and
    `nrProcess_stays_one`: a run after which none of them does.
-/
import Ucore.Lib.Machine
import Ucore.Libs.Error
import Ucore.Process.Pids

namespace Ucore

open Procs (pidWalk pidRepeat)

namespace Lab4

/-- `struct proc_struct`, as far as `do_fork` and `get_pid` read it. -/
structure Thread where
  state : ProcState
  pid : ℤ

/-- The process table; `P` are the addresses of the `proc_struct`s. -/
structure Threads (P : Type) where
  proc : P → Thread
  procList : List P
  hashList : ℕ → List P
  nrProcess : ℤ
  lastPid : ℤ
  nextSafe : ℤ

/-- What `do_fork` is given: the structure that `alloc_proc` finds room for, and whether
    `setup_kstack` finds a stack. -/
structure ForkAnswer (P : Type) where
  proc : Option P
  kstack : Bool

variable {P : Type} [DecidableEq P]

namespace Threads

def setProc (s : Threads P) (p : P) (g : Thread) : Threads P :=
  { s with proc := Function.update s.proc p g }

/-- `get_pid`; `none` if `k` walks over the list are not enough. -/
def getPid (k : ℕ) (s : Threads P) : Option (ℤ × Threads P) :=
  let inside (last : ℤ) : Option (ℤ × Threads P) := do
    let (last, safe) ← pidRepeat (fun p => (s.proc p).pid) s.procList k last maxPid
    some (last, { s with lastPid := last, nextSafe := safe })
  let last := s.lastPid + 1
  if last ≥ maxPid then inside 1
  else if last ≥ s.nextSafe then inside last
  else some (last, { s with lastPid := last })

/-- `alloc_proc`, on the structure that `kmalloc` has found. -/
def allocProc (s : Threads P) (proc : P) : Threads P := s.setProc proc ⟨.uninit, -1⟩

def hashProc (s : Threads P) (proc : P) : Threads P :=
  let i := pidHashfn (s.proc proc).pid
  { s with hashList := Function.update s.hashList i (proc :: s.hashList i) }

/-- `wakeup_proc`; `none` is its assertion. -/
def wakeupProc (s : Threads P) (proc : P) : Option (Threads P) :=
  if (s.proc proc).state ≠ .zombie ∧ (s.proc proc).state ≠ .runnable then
    some (s.setProc proc { s.proc proc with state := .runnable })
  else none

/-- `do_fork`, with `k` walks for `get_pid`.  `copy_mm` does nothing in this lab and returns 0. -/
def doFork (k : ℕ) (a : ForkAnswer P) (s : Threads P) :
    Option (Except Errno ℤ × Threads P) :=
  if s.nrProcess ≥ maxProcess then some (.error .noFreeProc, s)
  else
    match a.proc with
    | none => some (.error .noMem, s)
    | some proc => do
      let s := s.allocProc proc
      if !a.kstack then some (.error .noMem, s)
      else
        let (pid, s) ← s.getPid k
        let s := s.setProc proc { s.proc proc with pid := pid }
        let s := s.hashProc proc
        let s := { s with procList := proc :: s.procList }
        let s ← s.wakeupProc proc
        some (.ok (s.proc proc).pid, s)

end Threads

/-- After `proc_init` has set up `idleproc`, any number of calls of `do_fork`.  `kmalloc` does not
    give out the structure of a process. -/
def machine (P : Type) [DecidableEq P] : Machine (Threads P) (ℕ × ForkAnswer P) where
  Init s := s.procList = [] ∧ s.nrProcess = 1 ∧ s.lastPid = maxPid ∧ s.nextSafe = maxPid
  Legal s i := ∀ proc ∈ i.2.proc, proc ∉ s.procList
  step s i := (s.doFork i.1 i.2).map Prod.snd

variable {s s' : Threads P} {k : ℕ} {a : ForkAnswer P} {proc p : P} {pid : ℤ} {g : Thread}

namespace Threads

/-! ## The invariant -/

/-- No listed process has the pid `f`. -/
def Unused (s : Threads P) (f : ℤ) : Prop := ∀ p ∈ s.procList, (s.proc p).pid ≠ f

structure PidInv (s : Threads P) : Prop where
  nrProcess : s.nrProcess = 1
  nodup : s.procList.Nodup
  pid : ∀ p ∈ s.procList, 1 ≤ (s.proc p).pid ∧ (s.proc p).pid < maxPid
  inj : ∀ p ∈ s.procList, ∀ q ∈ s.procList, (s.proc p).pid = (s.proc q).pid → p = q
  last : 1 ≤ s.lastPid ∧ s.lastPid ≤ maxPid
  safe : s.nextSafe ≤ maxPid
  gap : ∀ p ∈ s.procList, (s.proc p).pid ≤ s.lastPid ∨ s.nextSafe ≤ (s.proc p).pid

theorem setProc_other (hp : proc ∉ s.procList) (h : p ∈ s.procList) :
    (s.setProc proc g).proc p = s.proc p := by
  have hne : p ≠ proc := by rintro rfl; exact hp h
  simp [setProc, Function.update_of_ne hne]

/-- A structure outside the list can be written. -/
theorem PidInv.setProc (h : PidInv s) (hp : proc ∉ s.procList) : PidInv (s.setProc proc g) where
  nrProcess := h.nrProcess
  nodup := h.nodup
  pid p hm := by rw [setProc_other hp hm]; exact h.pid p hm
  inj p hm q hq := by rw [setProc_other hp hm, setProc_other hp hq]; exact h.inj p hm q hq
  last := h.last
  safe := h.safe
  gap p hm := by rw [setProc_other hp hm]; exact h.gap p hm

/-! ## `get_pid` -/

/-- No listed process has a pid from `pid` up to `safe`. -/
structure FreeFrom (s : Threads P) (pid safe : ℤ) : Prop where
  pos : 1 ≤ pid
  lt : pid < maxPid
  le : safe ≤ maxPid
  free : ∀ p ∈ s.procList,
    (s.proc p).pid < pid ∨ pid < (s.proc p).pid ∧ safe ≤ (s.proc p).pid

omit [DecidableEq P] in
/-- The pid that `get_pid` returns is free. -/
theorem getPid_fresh (hi : PidInv s) (h : s.getPid k = some (pid, s')) :
    ∃ safe, s' = { s with lastPid := pid, nextSafe := safe } ∧ s.FreeFrom pid safe := by
  have hinside : ∀ last : ℤ, 1 ≤ last ∧ last < maxPid →
      (do let (last, safe) ← pidRepeat (fun p => (s.proc p).pid) s.procList k last maxPid
          some (last, { s with lastPid := last, nextSafe := safe })) = some (pid, s') →
      ∃ safe, s' = { s with lastPid := pid, nextSafe := safe } ∧ s.FreeFrom pid safe := by
    intro last hl h
    obtain ⟨⟨l, safe⟩, hr, h⟩ := Option.bind_eq_some_iff.1 h
    simp only [Option.some.injEq, Prod.mk.injEq] at h
    obtain ⟨rfl, rfl⟩ := h
    obtain ⟨h1, h2, h3, h4⟩ := Procs.pidRepeat_gap hl hr
    refine ⟨safe, rfl, h1, by omega, h3, fun p hp => ?_⟩
    have := h4 p hp; omega
  have hlast := hi.last
  simp only [getPid] at h
  split_ifs at h with h1 h2
  · exact hinside 1 (by simp [maxPid, maxProcess]) h
  · exact hinside _ (by omega) h
  · simp only [Option.some.injEq, Prod.mk.injEq] at h
    obtain ⟨rfl, rfl⟩ := h
    refine ⟨s.nextSafe, rfl, by omega, by omega, hi.safe, fun p hp => ?_⟩
    have := hi.gap p hp; omega

omit [DecidableEq P] in
/-- `get_pid` ends if some pid is free. -/
theorem getPid_ends {f : ℤ} (hi : PidInv s) (hf : 1 ≤ f ∧ f < maxPid) (hfree : s.Unused f) :
    ∃ k r, s.getPid k = some r := by
  have hinside : ∀ last : ℤ, 1 ≤ last ∧ last < maxPid → ∃ k r,
      (do let (last, safe) ← pidRepeat (fun p => (s.proc p).pid) s.procList k last maxPid
          some (last, { s with lastPid := last, nextSafe := safe })) = some r := by
    intro last hl
    obtain ⟨l, safe, hr, -⟩ := Procs.pidRepeat_spec hf hfree hl (Nat.lt_succ_self _)
    exact ⟨_, _, by rw [hr]; rfl⟩
  have hlast := hi.last
  simp only [getPid]
  split_ifs with h1 h2
  · exact hinside 1 (by simp [maxPid, maxProcess])
  · exact hinside _ (by omega)
  · exact ⟨0, _, rfl⟩

/-! ## `do_fork` -/

/-- **What `do_fork` does.**  It fails, and has written at most a structure outside the list; or
    it links the new process with the pid from `get_pid`, and does not count it. -/
theorem doFork_cases {r : Except Errno ℤ} (h : s.doFork k a = some (r, s')) :
    s' = s ∨ (∃ proc ∈ a.proc, s' = s.setProc proc ⟨.uninit, -1⟩) ∨
    ∃ proc ∈ a.proc, ∃ pid t, (s.allocProc proc).getPid k = some (pid, t) ∧
      s'.procList = proc :: t.procList ∧ s'.proc = Function.update t.proc proc ⟨.runnable, pid⟩ ∧
      s'.nrProcess = t.nrProcess ∧ s'.lastPid = t.lastPid ∧ s'.nextSafe = t.nextSafe := by
  simp only [doFork] at h
  by_cases h1 : s.nrProcess ≥ maxProcess
  · rw [if_pos h1] at h
    cases h; exact .inl rfl
  rw [if_neg h1] at h
  cases hp : a.proc with
  | none => rw [hp] at h; cases h; exact .inl rfl
  | some proc =>
    rw [hp] at h
    dsimp only at h
    split_ifs at h with h2
    · cases h; exact .inr (.inl ⟨proc, rfl, rfl⟩)
    obtain ⟨⟨pid, t⟩, hg, h⟩ := Option.bind_eq_some_iff.1 h
    obtain ⟨u, hw, h⟩ := Option.bind_eq_some_iff.1 h
    simp only [wakeupProc] at hw
    split_ifs at hw
    simp only [Option.some.injEq, Prod.mk.injEq] at hw h
    obtain ⟨-, rfl⟩ := h
    subst hw
    refine .inr (.inr ⟨proc, rfl, pid, t, hg, rfl, ?_, rfl, rfl, rfl⟩)
    simp [hashProc, setProc]

/-- With a free pid a new process is linked. -/
theorem doFork_ok (hi : PidInv s) (hp : proc ∉ s.procList) {f : ℤ} (hf : 1 ≤ f ∧ f < maxPid)
    (hfree : s.Unused f) : ∃ k pid s', s.doFork k ⟨some proc, true⟩ = some (.ok pid, s') ∧
      s'.procList = proc :: s.procList := by
  obtain ⟨k, ⟨pid, t⟩, hg⟩ := getPid_ends (s := s.allocProc proc) (hi.setProc hp) hf
    fun p hm => by rw [allocProc, setProc_other hp hm]; exact hfree p hm
  obtain ⟨safe, rfl, -⟩ := getPid_fresh (hi.setProc hp) hg
  have hn : ¬ s.nrProcess ≥ maxProcess := by simp [hi.nrProcess, maxProcess]
  refine ⟨k, pid, ?_⟩
  simp only [doFork, if_neg hn, Bool.not_true, Bool.false_eq_true, if_false, hg,
    Option.bind_eq_bind, Option.bind_some]
  simp [wakeupProc, hashProc, setProc]

theorem PidInv.doFork {r : Except Errno ℤ} (hi : PidInv s) (ha : ∀ proc ∈ a.proc, proc ∉ s.procList)
    (h : s.doFork k a = some (r, s')) : PidInv s' := by
  rcases doFork_cases h with rfl | ⟨proc, hp, rfl⟩ | ⟨proc, hp, pid, t, hg, h1, h2, h3, h4, h5⟩
  · exact hi
  · exact hi.setProc (ha proc hp)
  have hn := ha proc hp
  have hi' : PidInv (s.allocProc proc) := hi.setProc hn
  obtain ⟨safe, rfl, hfr⟩ := getPid_fresh hi' hg
  have hother : ∀ p ∈ s.procList, s'.proc p = (s.allocProc proc).proc p := fun p hm => by
    have hne : p ≠ proc := by rintro rfl; exact hn hm
    rw [h2, Function.update_of_ne hne]
  have hself : s'.proc proc = ⟨.runnable, pid⟩ := by rw [h2, Function.update_self]
  have hlist : s'.procList = proc :: s.procList := h1
  have hne : ∀ p ∈ s.procList, ((s.allocProc proc).proc p).pid ≠ pid := fun p hm => by
    have := hfr.free p hm; omega
  refine ⟨h3.trans hi.nrProcess, ?_, ?_, ?_, ?_, ?_, ?_⟩
  · rw [hlist]; exact List.nodup_cons.2 ⟨hn, hi.nodup⟩
  · rw [hlist]
    intro p hm
    rcases List.mem_cons.1 hm with rfl | hm
    · rw [hself]; exact ⟨hfr.pos, hfr.lt⟩
    · rw [hother p hm]; exact hi'.pid p hm
  · rw [hlist]
    intro p hm q hq he
    rcases List.mem_cons.1 hm with rfl | hm' <;> rcases List.mem_cons.1 hq with rfl | hq'
    · rfl
    · rw [hself, hother q hq'] at he; exact absurd he.symm (hne q hq')
    · rw [hself, hother p hm'] at he; exact absurd he (hne p hm')
    · rw [hother p hm', hother q hq'] at he; exact hi'.inj p hm' q hq' he
  · rw [h4]; exact ⟨hfr.pos, hfr.lt.le⟩
  · rw [h5]; exact hfr.le
  · rw [hlist, h4, h5]
    intro p hm
    rcases List.mem_cons.1 hm with rfl | hm
    · rw [hself]; exact .inl le_rfl
    · rw [hother p hm]
      have := hfr.free p hm; dsimp only; omega

theorem PidInv.reach (h : (machine P).Reach s) : PidInv s := by
  refine h.preserved (fun s hs => ?_) fun s i s' hi hl hst => ?_
  · obtain ⟨h1, h2, h3, h4⟩ := hs
    refine ⟨h2, ?_, ?_, ?_, ?_, h4.le, ?_⟩
    · rw [h1]; exact List.nodup_nil
    · simp [h1]
    · simp [h1]
    · rw [h3]; simp [maxPid, maxProcess]
    · simp [h1]
  · obtain ⟨⟨r, u⟩, hf, rfl⟩ := Option.map_eq_some_iff.1 hst
    exact hi.doFork hl hf

/-! ## The limit -/

/-- A pid is left exactly if there are fewer processes than pids. -/
theorem PidInv.unused_iff (hi : PidInv s) :
    (∃ f, (1 ≤ f ∧ f < maxPid) ∧ s.Unused f) ↔ (s.procList.length : ℤ) + 1 < maxPid := by
  have hcard : s.procList.toFinset.card = s.procList.length :=
    List.toFinset_card_of_nodup hi.nodup
  constructor
  · rintro ⟨f, hf, hfree⟩
    have hinj : Set.InjOn (fun p => (s.proc p).pid) s.procList.toFinset := by
      intro p hp q hq he
      exact hi.inj p (by simpa using hp) q (by simpa using hq) he
    have hsub : s.procList.toFinset.image (fun p => (s.proc p).pid) ⊆
        (Finset.Ico 1 maxPid).erase f := by
      intro x hx
      obtain ⟨p, hp, rfl⟩ := Finset.mem_image.1 hx
      have hp' : p ∈ s.procList := by simpa using hp
      exact Finset.mem_erase.2 ⟨hfree p hp', Finset.mem_Ico.2 (hi.pid p hp')⟩
    have hle := Finset.card_le_card hsub
    have hpids : (Finset.Ico 1 maxPid).card = (maxPid - 1).toNat := Int.card_Ico _ _
    rw [Finset.card_image_of_injOn hinj, hcard,
      Finset.card_erase_of_mem (Finset.mem_Ico.2 hf), hpids] at hle
    have := hf.1.trans_lt hf.2
    omega
  · intro hlt
    have hfew : (s.procList.toFinset.card : ℤ) < maxPid - 1 := by rw [hcard]; omega
    obtain ⟨f, h1, h2, h3⟩ := Procs.exists_free_pid (fun p => (s.proc p).pid) hfew
    exact ⟨f, ⟨h1, h2⟩, fun p hp => h3 p (by simpa using hp)⟩

/-- Once `MAX_PROCESS` is reached `do_fork` refuses. -/
def Refuses (s : Threads P) : Prop :=
  (s.procList.length : ℤ) + 1 ≥ maxProcess → ∀ k a, s.doFork k a = some (.error .noFreeProc, s)

/-- `get_pid` ends, with a pid in `[1, MAX_PID)` that no listed process uses. -/
def Fresh (s : Threads P) : Prop :=
  ∃ k pid s', s.getPid k = some (pid, s') ∧ (1 ≤ pid ∧ pid < maxPid) ∧ s.Unused pid

/-- The limit on processes; the 1 is `idleproc`, which is not in the list. -/
structure Limited (s : Threads P) : Prop where
  counted : s.nrProcess = s.procList.length + 1
  refuses : s.Refuses
  fresh : s.Fresh

theorem PidInv.fresh_iff (hi : PidInv s) :
    s.Fresh ↔ (s.procList.length : ℤ) + 1 < maxPid := by
  rw [← hi.unused_iff]
  constructor
  · rintro ⟨k, pid, s', -, hp, hu⟩
    exact ⟨pid, hp, hu⟩
  · rintro ⟨f, hf, hu⟩
    obtain ⟨k, ⟨pid, s'⟩, hg⟩ := getPid_ends hi hf hu
    obtain ⟨safe, -, hfr⟩ := getPid_fresh hi hg
    refine ⟨k, pid, s', hg, ⟨hfr.pos, hfr.lt⟩, fun p hp => ?_⟩
    have := hfr.free p hp; omega

theorem PidInv.refuses_iff (hi : PidInv s) :
    s.Refuses ↔ (s.procList.length : ℤ) + 1 < maxProcess := by
  constructor
  · intro h
    by_contra hge
    have hn : ¬ s.nrProcess ≥ maxProcess := by simp [hi.nrProcess, maxProcess]
    have := h (not_lt.1 hge) 0 ⟨none, true⟩
    simp [Threads.doFork, hn] at this
  · exact fun hlt hge => absurd hge (not_le.2 hlt)

/-- With every pid in use `get_pid` does not end, and so `do_fork` does not. -/
theorem PidInv.getPid_none (hi : PidInv s) (hfull : (s.procList.length : ℤ) + 1 = maxPid) (k : ℕ) :
    s.getPid k = none := by
  by_contra hne
  obtain ⟨⟨pid, s'⟩, hg⟩ := Option.ne_none_iff_exists'.1 hne
  obtain ⟨safe, -, hfr⟩ := getPid_fresh hi hg
  have hu : s.Unused pid := fun p hp => by have := hfr.free p hp; omega
  have := hi.unused_iff.1 ⟨pid, ⟨hfr.pos, hfr.lt⟩, hu⟩
  omega

/-- **The limit on processes.**  `nr_process` is right only before the first process is forked;
    `do_fork` refuses no process; `get_pid` ends while fewer than `MAX_PID - 1` are listed. -/
theorem process_limit (h : (machine P).Reach s) :
    (s.Limited ↔ s.procList = []) ∧
    (s.Refuses ↔ (s.procList.length : ℤ) + 1 < maxProcess) ∧
    (s.Fresh ↔ (s.procList.length : ℤ) + 1 < maxPid) := by
  have hi := PidInv.reach h
  refine ⟨⟨fun hl => ?_, fun hnil => ⟨?_, ?_, ?_⟩⟩, hi.refuses_iff, hi.fresh_iff⟩
  · have h1 := hl.counted
    rw [hi.nrProcess] at h1
    exact List.length_eq_zero_iff.1 (by omega)
  · simp [hi.nrProcess, hnil]
  · exact hi.refuses_iff.2 (by simp [hnil, maxProcess])
  · exact hi.fresh_iff.2 (by simp [hnil, maxPid, maxProcess])

/-- The table after `proc_init` has set up `idleproc`. -/
def start : Threads ℕ := ⟨fun _ => ⟨.uninit, -1⟩, [], fun _ => [], 1, maxPid, maxPid⟩

/-- As many processes can be forked as there are pids. -/
theorem reach_length : ∀ n : ℕ, (n : ℤ) + 1 ≤ maxPid →
    ∃ s : Threads ℕ, (machine ℕ).Reach s ∧ s.procList.length = n ∧ ∀ p ∈ s.procList, p < n := by
  intro n
  induction n with
  | zero => exact fun _ => ⟨start, .init ⟨rfl, rfl, rfl, rfl⟩, rfl, by simp [start]⟩
  | succ n ih =>
    intro hn
    obtain ⟨s, hr, hlen, hlt⟩ := ih (by omega)
    have hi := PidInv.reach hr
    have hnew : n ∉ s.procList := fun hm => (hlt n hm).false
    obtain ⟨f, hf, hu⟩ := hi.unused_iff.2 (by push_cast at hn; omega)
    obtain ⟨k, pid, s', hfork, hlist⟩ := doFork_ok hi hnew hf hu
    have hstep : (machine ℕ).step s (k, ⟨some n, true⟩) = some s' := by
      show (s.doFork k ⟨some n, true⟩).map Prod.snd = some s'
      rw [hfork]; rfl
    have hlegal : (machine ℕ).Legal s (k, ⟨some n, true⟩) := by rintro p ⟨⟩; exact hnew
    refine ⟨s', hr.step hlegal hstep, ?_, ?_⟩
    · rw [hlist, List.length_cons, hlen]
    · rw [hlist]
      intro p hp
      rcases List.mem_cons.1 hp with rfl | hp
      · omega
      · exact (hlt p hp).trans (Nat.lt_succ_self n)

theorem process_limit_one : ∃ s : Threads ℕ, s.procList.length = 1 ∧
    ((s.Limited ↔ s.procList = []) ∧ (s.Refuses ↔ (s.procList.length : ℤ) + 1 < maxProcess) ∧
      (s.Fresh ↔ (s.procList.length : ℤ) + 1 < maxPid)) := by
  obtain ⟨s, hr, hlen, -⟩ := reach_length 1 (by decide)
  exact ⟨s, hlen, process_limit hr⟩

/-- After 8191 calls of `do_fork`, `nr_process` is 1; the next call is not refused, and does not
    return. -/
theorem nrProcess_stays_one : ∃ s : Threads ℕ, (machine ℕ).Reach s ∧ s.procList.length = 8191 ∧
    s.nrProcess = 1 ∧ ¬ s.Limited ∧ ∀ k, s.doFork k ⟨some 8191, true⟩ = none := by
  obtain ⟨s, hr, hlen, hlt⟩ := reach_length 8191 (by decide)
  have hi := PidInv.reach hr
  refine ⟨s, hr, hlen, hi.nrProcess, fun hl => ?_, fun k => ?_⟩
  · have := hl.counted
    rw [hi.nrProcess, hlen] at this
    omega
  · have hnew : 8191 ∉ s.procList := fun hm => (hlt _ hm).false
    have hn : ¬ s.nrProcess ≥ maxProcess := by simp [hi.nrProcess, maxProcess]
    have hg := (hi.setProc (g := ⟨.uninit, -1⟩) hnew).getPid_none
      (by simp [Threads.setProc, hlen, maxPid, maxProcess]) k
    simp only [doFork, if_neg hn, allocProc, hg, Bool.not_true, Bool.false_eq_true, if_false,
      Option.bind_eq_bind, Option.bind_none]

end Threads

end Lab4

end Ucore
