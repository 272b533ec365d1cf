/-
  `get_pid`, call after call.

  A process is created with the pid that `get_pid` returns and linked by `set_links`, and removed by
  `remove_links`.

  * `PidTable.step`: the listed processes keep different pids, none of them strictly between
    `last_pid` and `next_safe`;
  * `get_pid_unique`: so after every history `get_pid` returns a pid of no listed process.
-/
import Ucore.Process.TreeInv
import Ucore.Lib.Machine

namespace Ucore

open Intrusive

variable {P : Type} [DecidableEq P]

set_option linter.unusedSectionVars false

namespace Procs

/-- The processes on `proc_list`. -/
def listed (s : Procs P) : List P :=
  ((listNodes s.links .procList fuel .procList).bind fun le => le.mapM listProc).getD []

/-- A process is created, as far as its pid is concerned, or removed. -/
inductive PidOp (P : Type) where
  | create (proc parent : P)
  | remove (proc : P)

namespace PidOp

/-- The lines of `do_fork`, and of `do_wait`. -/
def step (s : Procs P) : PidOp P → Option (Procs P)
  | .create proc parent => do
    let s := (s.allocProc proc).setParent proc (some parent)
    let (pid, s) ← s.getPid
    (s.setPid proc pid).setLinks proc
  | .remove proc => s.removeLinks proc

/-- The structure of a new process is not that of a listed one. -/
def Legal (s : Procs P) : PidOp P → Prop
  | .create proc _ => proc ∉ s.listed
  | .remove proc => proc ∈ s.listed

instance (s : Procs P) : ∀ op, Decidable (Legal s op)
  | .create proc _ => inferInstanceAs (Decidable (proc ∉ s.listed))
  | .remove proc => inferInstanceAs (Decidable (proc ∈ s.listed))

end PidOp

/-- At first no process is listed. -/
def pidMachine (P : Type) [DecidableEq P] : Machine (Procs P) (PidOp P) where
  Init s := Circ s.links .procList [] ∧ s.lastPid = maxPid ∧ s.nextSafe = maxPid
  Legal := PidOp.Legal
  step := PidOp.step

instance (s : Procs P) (op : PidOp P) : Decidable ((pidMachine P).Legal s op) :=
  inferInstanceAs (Decidable (op.Legal s))

variable {s s' : Procs P} {ps : List P} {pid : ℤ} {proc : P}

/-! ## Steps -/

namespace PidTable

theorem listed_eq (h : PidTable s ps) : s.listed = ps := by
  rw [listed, h.listNodes_eq, Option.bind_some, mapM_listProc]
  rfl

/-- The structure of a process that is not listed is written. -/
theorem setPcb (h : PidTable s ps) (hp : proc ∉ ps) (hl : s'.links = s.links)
    (hs : s'.lastPid = s.lastPid ∧ s'.nextSafe = s.nextSafe)
    (hpid : ∀ p, p ≠ proc → (s'.pcb p).pid = (s.pcb p).pid) : PidTable s' ps := by
  have hps : ∀ p ∈ ps, (s'.pcb p).pid = (s.pcb p).pid := fun p hm =>
    hpid p fun e => hp (e ▸ hm)
  refine ⟨hl ▸ h.ring, ?_, fun p hm => hps p hm ▸ h.range p hm, hs.1 ▸ h.last, hs.2 ▸ h.safe,
    fun p hm => ?_⟩
  · rw [List.map_congr_left hps]
    exact h.distinct
  · rw [hps p hm, hs.1, hs.2]
    exact h.gap p hm

end PidTable

theorem setLinks_eq_some (h : s.setLinks proc = some s') :
    s'.links = listAdd s.links .procList (.listLink proc) ∧
      (s'.lastPid = s.lastPid ∧ s'.nextSafe = s.nextSafe) ∧
      ∀ p, (s'.pcb p).pid = (s.pcb p).pid := by
  obtain ⟨parent, -, h⟩ := Option.bind_eq_some_iff.1 h
  cases h
  exact ⟨rfl, ⟨rfl, rfl⟩, fun p => by simp⟩

theorem removeLinks_eq_some (h : s.removeLinks proc = some s') :
    s'.links = listDel s.links (.listLink proc) ∧
      (s'.lastPid = s.lastPid ∧ s'.nextSafe = s.nextSafe) ∧
      ∀ p, (s'.pcb p).pid = (s.pcb p).pid := by
  simp only [removeLinks] at h
  split at h
  · cases h
    exact ⟨rfl, ⟨rfl, rfl⟩, fun p => by simp⟩
  · obtain ⟨parent, -, h⟩ := Option.bind_eq_some_iff.1 h
    cases h
    exact ⟨rfl, ⟨rfl, rfl⟩, fun p => by simp⟩

/-- A process that has got its pid is linked. -/
theorem PidTable.link (h : PidTable s ps) (hp : proc ∉ ps) (hg : s.getPid = some (pid, s')) :
    ∀ {t}, (s'.setPid proc pid).setLinks proc = some t → PidTable t (proc :: ps) := by
  intro t ht
  obtain ⟨safe, rfl, h1, h2, h3, h4⟩ := h.getPid_eq_some hg
  obtain ⟨hl, ⟨hlast, hsafe⟩, hpid⟩ := setLinks_eq_some ht
  have hnew : (t.pcb proc).pid = pid := by rw [hpid]; simp
  have hold : ∀ p ∈ ps, (t.pcb p).pid = (s.pcb p).pid := fun p hm => by
    have hne : p ≠ proc := fun e => hp (e ▸ hm)
    rw [hpid]
    simp [hne]
  have hlast : t.lastPid = pid := hlast
  have hsafe : t.nextSafe = safe := hsafe
  refine ⟨?_, ?_, fun p hm => ?_, by rw [hlast]; omega, hsafe ▸ h3, fun p hm => ?_⟩
  · rw [hl, List.map_cons]
    refine circ_listAdd_front h.ring ?_
    simpa using hp
  · rw [List.map_cons, List.nodup_cons, List.map_congr_left hold, hnew]
    refine ⟨fun hm => ?_, h.distinct⟩
    obtain ⟨p, hm, he⟩ := List.mem_map.1 hm
    have := h4 p hm
    omega
  · obtain rfl | hm := List.mem_cons.1 hm
    · rw [hnew]
      exact ⟨h1, h2⟩
    · rw [hold p hm]
      exact h.range p hm
  · rw [hlast, hsafe]
    obtain rfl | hm := List.mem_cons.1 hm
    · exact .inl hnew.le
    · rw [hold p hm]
      have := h4 p hm
      omega

/-- A process is unlinked. -/
theorem PidTable.unlink {as bs : List P} (h : PidTable s (as ++ proc :: bs))
    (hr : s.removeLinks proc = some s') : PidTable s' (as ++ bs) := by
  obtain ⟨hl, ⟨hlast, hsafe⟩, hpid⟩ := removeLinks_eq_some hr
  have hsub : (as ++ bs).Sublist (as ++ proc :: bs) := by simp
  refine ⟨?_, ?_, fun p hm => ?_, hlast ▸ h.last, hsafe ▸ h.safe, fun p hm => ?_⟩
  · have hring := h.ring
    rw [List.map_append, List.map_cons] at hring
    rw [hl, List.map_append]
    exact circ_listDel hring
  · rw [List.map_congr_left fun p _ => hpid p]
    exact h.distinct.sublist (hsub.map _)
  · rw [hpid]
    exact h.range p (hsub.subset hm)
  · rw [hpid, hlast, hsafe]
    exact h.gap p (hsub.subset hm)

/-- **One step.** -/
theorem PidTable.step (h : PidTable s ps) {op : PidOp P} (hl : op.Legal s)
    (hs : op.step s = some s') : ∃ ps', PidTable s' ps' := by
  cases op with
  | create proc parent =>
    have hp : proc ∉ ps := h.listed_eq ▸ hl
    have h' : PidTable ((s.allocProc proc).setParent proc (some parent)) ps :=
      h.setPcb hp rfl ⟨rfl, rfl⟩ fun p hne => by simp [allocProc, hne]
    obtain ⟨⟨pid, t⟩, hg, hs⟩ := Option.bind_eq_some_iff.1 hs
    exact ⟨_, h'.link hp hg hs⟩
  | remove proc =>
    have hp : proc ∈ ps := h.listed_eq ▸ hl
    obtain ⟨as, bs, rfl⟩ := List.append_of_mem hp
    exact ⟨_, h.unlink hs⟩

/-- **`get_pid`** returns a pid of no listed process after every history of creations and removals,
    if not all pids are in use, and the pids between `last_pid` and `next_safe` are free. -/
theorem get_pid_unique (h : (pidMachine P).Reach s) : ∃ ps : List P,
    Circ s.links .procList (ps.map .listLink) ∧
    (ps.map fun p => (s.pcb p).pid).Nodup ∧
    (∀ p ∈ ps, 1 ≤ (s.pcb p).pid ∧ (s.pcb p).pid < maxPid) ∧
    (∀ p ∈ ps, ¬(s.lastPid < (s.pcb p).pid ∧ (s.pcb p).pid < s.nextSafe)) ∧
    ((ps.length : ℤ) < maxPid - 1 → ∃ pid t, s.getPid = some (pid, t) ∧ 1 ≤ pid ∧ pid < maxPid ∧
      ∀ p ∈ ps, (s.pcb p).pid ≠ pid) := by
  obtain ⟨ps, hp⟩ : ∃ ps, PidTable s ps := by
    refine h.preserved (I := fun s => ∃ ps, PidTable s ps) (fun s hs => ⟨[], ?_⟩)
      fun s op t ⟨ps, hp⟩ hl hs => hp.step hl hs
    obtain ⟨hc, hlast, hsafe⟩ := hs
    exact ⟨hc, List.nodup_nil, by simp, by rw [hlast]; decide, hsafe.le, by simp⟩
  refine ⟨ps, hp.ring, hp.distinct, hp.range, fun p hm hlt => ?_, fun hc => ?_⟩
  · have := hp.gap p hm
    omega
  · obtain ⟨pid, t, hg⟩ := hp.getPid_ends hc
    obtain ⟨safe, -, h1, h2, -, h4⟩ := hp.getPid_eq_some hg
    exact ⟨pid, t, hg, h1, h2, fun p hm he => by have := h4 p hm; omega⟩

/-- The numbers below three, as processes. -/
local instance neZeroThree : NeZero 3 := ⟨by decide⟩

/-- The table as `proc_init` finds it. -/
def noProcs : Procs (Fin 3) where
  links := listInit ⟨id, id⟩ .procList
  pcb _ := ⟨⟨.uninit, 0⟩, -1, none, 0, none, none, none⟩
  nrProcess := 0
  lastPid := maxPid
  nextSafe := maxPid
  idleproc := 0
  initproc := none
  forking _ := none

/-- Two processes are created, and the first one is removed. -/
theorem get_pid_unique_removed : ∃ s, (pidMachine (Fin 3)).Reach s ∧
    (s.listed = [2] ∧ (s.pcb 2).pid = 2 ∧ s.lastPid = 2 ∧ s.nextSafe = maxPid) ∧
    ∃ pid t, s.getPid = some (pid, t) := by
  have hrun : (((pidMachine (Fin 3)).run noProcs
      [.create 1 0, .create 2 0, .remove 1]).bind fun s =>
        if s.listed = [2] ∧ (s.pcb 2).pid = 2 ∧ s.lastPid = 2 ∧ s.nextSafe = maxPid then some ()
        else none) = some () := by decide +kernel
  obtain ⟨s, hs, hif⟩ := Option.bind_eq_some_iff.1 hrun
  split at hif
  · rename_i hc
    have h0 : (pidMachine (Fin 3)).Init noProcs := ⟨circ_listInit _ _, rfl, rfl⟩
    have hr := (Machine.Reach.init h0).run hs
    obtain ⟨ps, hring, hnd, hrange, -, hget⟩ := get_pid_unique hr
    have hlen : (ps.length : ℤ) < maxPid - 1 := by
      have hle : ps.length ≤ 3 := by
        have := (hring.nodup_tail.of_map ProcNode.listLink).length_le_card
        simpa using this
      have hmax : maxPid = 8192 := rfl
      omega
    obtain ⟨pid, t, hg, -⟩ := hget hlen
    exact ⟨s, hr, hc, pid, t, hg⟩
  · cases hif

end Procs

end Ucore
