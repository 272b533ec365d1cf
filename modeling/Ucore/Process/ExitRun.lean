/-
  Runs of processes that share memory and files.

  * `Shares.Inv`: the counts are those of the holders; `Inv.fork`, `Inv.exit`, `Inv.exec`, …: the
    steps keep it;
  * `exit_releases`: in runs in which `do_exit` finds an `mm_struct` and `copy_files` does not fail
    after `copy_mm`, every structure is there as long as it is held, with the count of its holders;
  * `exit_keeps_files`: a process without an `mm_struct` exits with its share of the files.
-/
import Ucore.Lib.Machine
import Ucore.Lib.Shared
import Ucore.Process.Exit

namespace Ucore

open Function

/-- The pids. -/
def pids : Finset ℕ := Finset.range 8192

inductive ShareOp where
  | fork (p q : ℕ) (cloneVm cloneFs : Bool) (a : Shares.ForkAnswers)
  | exit (p : ℕ)
  | closed (p : ℕ)
  | exec (p : ℕ) (a : Shares.ExecAnswer)
  | create (p : ℕ) (mm : Option ℕ)
  | load (p : ℕ) (a : Shares.LoadAnswer)
  | wait (p : ℕ)

namespace Sharer

/-- The `mm_struct` that a process holds. -/
def heldMm (h : Sharer) : Option ℕ :=
  match h.stage with
  | .zombie => none
  | _ => h.mm

/-- The one that it has made in `load_icode`. -/
def loadedMm (h : Sharer) : Option ℕ :=
  match h.stage with
  | .loading mm => mm
  | _ => none

/-- The `files_struct` that a process holds; one that is in `files_destroy` has let go of it. -/
def heldFiles (h : Sharer) : Option ℕ :=
  match h.stage with
  | .running => h.filesp
  | .loading _ => h.filesp
  | _ => none

def closedFiles (h : Sharer) : Option ℕ :=
  match h.stage with
  | .closing => h.filesp
  | _ => none

end Sharer

namespace Shares

variable {s s' : Shares} {p q m f : ℕ} {h : Sharer} {a : ForkAnswers}

def heldMm (s : Shares) (p : ℕ) : Option ℕ := (s.procs p).bind Sharer.heldMm

def loadedMm (s : Shares) (p : ℕ) : Option ℕ := (s.procs p).bind Sharer.loadedMm

def heldFiles (s : Shares) (p : ℕ) : Option ℕ := (s.procs p).bind Sharer.heldFiles

def closedFiles (s : Shares) (p : ℕ) : Option ℕ := (s.procs p).bind Sharer.closedFiles

/-- What is read off a process when it has been written. -/
theorem bind_update (k : Sharer → Option ℕ) (g : ℕ → Option Sharer) (p : ℕ) (o : Option Sharer) :
    (fun x => (update g p o x).bind k) = update (fun x => (g x).bind k) p (o.bind k) := by
  funext x
  by_cases hx : x = p
  · rw [hx, update_self, update_self]
  · rw [update_of_ne hx, update_of_ne hx]

def step (s : Shares) : ShareOp → Option Shares
  | .fork p q vm fs a => s.doFork p q vm fs a
  | .exit p => s.doExit p
  | .closed p => s.exitClosed p
  | .exec p a => s.doExecve p a
  | .create p mm => s.loadCreate p mm
  | .load p a => s.loadIcode p a
  | .wait p => some { s with procs := update s.procs p none }

/-- The stage of a process. -/
def stageOf (s : Shares) (p : ℕ) : Option Stage := (s.procs p).map Sharer.stage

/-- `mm_create` and `files_create` return new structures, and a child has a new pid. -/
def Legal (s : Shares) : ShareOp → Prop
  | .fork p q _ _ a => s.stageOf p = some .running ∧ q < 8192 ∧ s.procs q = none ∧
    (∀ m ∈ a.mm, s.mms m = none) ∧ ∀ f ∈ a.files, s.filess f = none
  | .exit p => s.stageOf p = some .running
  | .closed p => s.stageOf p = some .closing
  | .exec p _ => s.stageOf p = some .running
  | .create p mm => s.stageOf p = some (.loading none) ∧ ∀ m ∈ mm, s.mms m = none
  | .load p _ => s.stageOf p = some (.loading (s.loadedMm p)) ∧ s.loadedMm p ≠ none
  | .wait p => s.stageOf p = some .zombie

/-- The process that calls `do_exit` in a step. -/
def exiting : ShareOp → Option ℕ
  | .exit p => some p
  | .exec p .notOpened => some p
  | .create p none => some p
  | .load p .failed => some p
  | _ => none

/-- `copy_mm` succeeds and shares or makes an `mm_struct`. -/
def CopiesMm (s : Shares) (p : ℕ) (cloneVm : Bool) (a : ForkAnswers) : Prop :=
  (∃ h ∈ s.procs p, h.mm ≠ none) ∧ (cloneVm = true ∨ a.mm ≠ none ∧ a.pgdir = true ∧ a.dup = true)

/-- `do_exit` finds an `mm_struct`, and `copy_files` does not fail after `copy_mm`. -/
def Releasing (s : Shares) : ShareOp → Prop
  | .fork p _ vm fs a => a.proc = true → s.CopiesMm p vm a → fs = true ∨ a.files ≠ none
  | op => ∀ p ∈ exiting op, ∃ h ∈ s.procs p, h.mm ≠ none

/-- `idleproc` after `files_create`. -/
def Init (s : Shares) : Prop :=
  ∃ f, s.procs = update (fun _ => none) 0 (some ⟨.running, none, some f⟩) ∧
  s.mms = (fun _ => none) ∧ s.filess = update (fun _ => none) f (some 1)

def machine : Machine Shares ShareOp where
  Init := Init
  Legal := Legal
  step := step

/-- Runs in which all that is shared is released. -/
def careful : Machine Shares ShareOp where
  Init := Init
  Legal s op := Legal s op ∧ Releasing s op
  step := step

/-! ## The invariant -/

/-- The processes: they have files until they exit, and no `mm_struct` while a program is loaded. -/
structure Fit (s : Shares) : Prop where
  pid : ∀ p h, s.procs p = some h → p ∈ pids
  files : ∀ p h, s.procs p = some h → h.filesp ≠ none
  loading : ∀ p h m, s.procs p = some h → h.stage = .loading m → h.mm = none
  closing : ∀ p h, s.procs p = some h → h.stage = .closing → h.mm = none

structure Inv (s : Shares) : Prop where
  fit : Fit s
  mm : Shared pids s.mms s.heldMm s.loadedMm
  files : Shared pids s.filess s.heldFiles s.closedFiles

theorem Fit.setProc (hf : Fit s) (hp : p ∈ pids) (h1 : h.filesp ≠ none)
    (h2 : ∀ m, h.stage = .loading m → h.mm = none) (h3 : h.stage = .closing → h.mm = none)
    (hs : s'.procs = update s.procs p (some h)) : Fit s' := by
  have hcase : ∀ {q h'}, s'.procs q = some h' → q = p ∧ h' = h ∨ s.procs q = some h' :=
    fun {q h'} hq => by
      rw [hs] at hq
      by_cases hqp : q = p
      · rw [hqp, update_self] at hq
        exact .inl ⟨hqp, (Option.some.inj hq).symm⟩
      · rw [update_of_ne hqp] at hq
        exact .inr hq
  refine ⟨fun q h' hq => ?_, fun q h' hq => ?_, fun q h' m hq => ?_, fun q h' hq => ?_⟩
  · obtain ⟨rfl, rfl⟩ | hq := hcase hq
    · exact hp
    · exact hf.pid q h' hq
  · obtain ⟨rfl, rfl⟩ | hq := hcase hq
    · exact h1
    · exact hf.files q h' hq
  · obtain ⟨rfl, rfl⟩ | hq := hcase hq
    · exact h2 m
    · exact hf.loading q h' m hq
  · obtain ⟨rfl, rfl⟩ | hq := hcase hq
    · exact h3
    · exact hf.closing q h' hq

/-- The invariant after the process `p` has been written. -/
theorem Inv.setProc (hf : Fit s) (hp : p ∈ pids) (h1 : h.filesp ≠ none)
    (h2 : ∀ m, h.stage = .loading m → h.mm = none) (h3 : h.stage = .closing → h.mm = none)
    (hs : s'.procs = update s.procs p (some h))
    (hmm : Shared pids s'.mms (update s.heldMm p h.heldMm) (update s.loadedMm p h.loadedMm))
    (hfiles : Shared pids s'.filess (update s.heldFiles p h.heldFiles)
      (update s.closedFiles p h.closedFiles)) : Inv s' := by
  refine ⟨hf.setProc hp h1 h2 h3 hs, ?_, ?_⟩
  · unfold heldMm loadedMm at hmm ⊢
    rw [hs, bind_update, bind_update]
    exact hmm
  · unfold heldFiles closedFiles at hfiles ⊢
    rw [hs, bind_update, bind_update]
    exact hfiles

/-! ## The counts -/

theorem update_none {α : Type*} {g : ℕ → Option α} (h : g p = none) : update g p none = g :=
  update_eq_self_iff.2 h.symm

section
variable {hold spare : ℕ → Option ℕ}

theorem putMm_spec (hS : Shared pids s.mms hold spare) (hp : p ∈ pids) (hh : hold p = some m)
    (hs : spare p = none) : ∃ s', s.putMm m = some s' ∧ s'.procs = s.procs ∧ s'.filess = s.filess ∧
      Shared pids s'.mms (update hold p none) spare := by
  obtain ⟨c, hc, -⟩ := hS.held hp hh
  by_cases h1 : c - 1 = 0
  · obtain rfl : c = 1 := by omega
    have hlast := (hS.drop_last hp hh hs hc).discard hp (update_self ..)
    rw [update_idem, update_idem, update_none hs] at hlast
    refine ⟨{ s with mms := update s.mms m none }, ?_, rfl, rfl, hlast⟩
    simp [putMm, hc, mmDestroy]
  · refine ⟨{ s with mms := update s.mms m (some (c - 1)) }, ?_, rfl, rfl, hS.drop hp hh hc h1⟩
    simp only [putMm, hc, Option.bind_some]
    rw [if_neg h1]

theorem putFiles_spec (hS : Shared pids s.filess hold spare) (hp : p ∈ pids) (hh : hold p = some f)
    (hs : spare p = none) : ∃ b s', s.putFiles (some f) = some (b, s') ∧ s'.procs = s.procs ∧
      s'.mms = s.mms ∧ Shared pids s'.filess (update hold p none)
        (update spare p (if b = true then some f else none)) := by
  obtain ⟨c, hc, -⟩ := hS.held hp hh
  refine
    ⟨decide (c - 1 = 0), { s with filess := update s.filess f (some (c - 1)) }, ?_, rfl, rfl, ?_⟩
  · simp only [putFiles, hc, Option.map_some]
  · by_cases h1 : c - 1 = 0
    · obtain rfl : c = 1 := by omega
      exact hS.drop_last hp hh hs hc
    · rw [decide_eq_false h1, if_neg (by simp), update_none hs]
      exact hS.drop hp hh hc h1

theorem copyMm_spec (hS : Shared pids s.mms hold spare) (hp : p ∈ pids) (hq : q ∈ pids)
    {vm : Bool} {o : Option ℕ} {r : Option (Option ℕ)} (ho : ∀ m, o = some m → hold p = some m)
    (hh : hold q = none) (hs : spare q = none) (hnew : ∀ m ∈ a.mm, s.mms m = none)
    (hc : s.copyMm vm a o = some (r, s')) : s'.procs = s.procs ∧ s'.filess = s.filess ∧
      (r = none → s'.mms = s.mms) ∧ (∀ mm, r = some mm →
        (mm ≠ none → o ≠ none ∧ (vm = true ∨ a.mm ≠ none ∧ a.pgdir = true ∧ a.dup = true)) ∧
        (mm = none → s'.mms = s.mms) ∧ Shared pids s'.mms (update hold q mm) spare) := by
  cases o with
  | none =>
    cases hc
    refine ⟨rfl, rfl, fun _ => rfl, fun mm hmm => ?_⟩
    cases hmm
    exact ⟨fun h => absurd rfl h, fun _ => rfl, by rwa [update_none hh]⟩
  | some m =>
    simp only [copyMm] at hc
    split at hc
    · -- the `mm_struct` is shared
      rename_i hvm
      obtain ⟨c, hcount, -⟩ := hS.held hp (ho m rfl)
      simp only [mmCountInc, hcount, Option.map_some, Option.some.injEq, Prod.mk.injEq] at hc
      obtain ⟨rfl, rfl⟩ := hc
      refine ⟨rfl, rfl, nofun, fun mm hmm => ?_⟩
      cases hmm
      exact ⟨fun _ => ⟨by simp, .inl hvm⟩, nofun,
        hS.share hq hh hp (ho m rfl) hcount⟩
    · cases hmm : a.mm with
      | none =>
        rw [hmm] at hc
        cases hc
        exact ⟨rfl, rfl, fun _ => rfl, nofun⟩
      | some n =>
        have hn := hnew n hmm
        rw [hmm] at hc
        dsimp only at hc
        split at hc
        · -- it is copied
          rename_i hok
          simp only [mmCountInc, mmCreate, update_self, Option.map_some, Option.some.injEq,
            Prod.mk.injEq] at hc
          obtain ⟨rfl, rfl⟩ := hc
          refine ⟨rfl, rfl, nofun, fun mm hmm' => ?_⟩
          cases hmm'
          refine ⟨fun _ => ⟨by simp, .inr ⟨by simp, hok⟩⟩, nofun, ?_⟩
          have hin := (hS.create hq hs hn).install hq hh (update_self ..)
          rw [update_idem, update_idem] at hin
          rw [update_idem]
          rwa [update_none hs] at hin
        · -- the new one is destroyed
          simp only [mmDestroy, mmCreate, update_self, if_true, Option.map_some, Option.some.injEq,
            Prod.mk.injEq] at hc
          obtain ⟨rfl, rfl⟩ := hc
          refine ⟨rfl, rfl, fun _ => ?_, nofun⟩
          dsimp only
          rw [update_idem, update_none hn]

theorem copyFiles_spec (hS : Shared pids s.filess hold spare) (hp : p ∈ pids) (hq : q ∈ pids)
    {fs : Bool} {o r : Option ℕ} (ho : ∀ f, o = some f → hold p = some f) (hh : hold q = none)
    (hs : spare q = none) (hnew : ∀ f ∈ a.files, s.filess f = none)
    (hc : s.copyFiles fs a o = some (r, s')) : s'.procs = s.procs ∧ s'.mms = s.mms ∧
      (r = none → s' = s ∧ fs = false ∧ a.files = none) ∧
      ∀ f, r = some f → Shared pids s'.filess (update hold q (some f)) spare := by
  cases o with
  | none => cases hc
  | some f =>
    obtain ⟨c, hcount, hpos⟩ := hS.held hp (ho f rfl)
    simp only [copyFiles] at hc
    split at hc
    · simp only [filesCountInc, hcount, Option.map_some, Option.some.injEq, Prod.mk.injEq] at hc
      obtain ⟨rfl, rfl⟩ := hc
      refine ⟨rfl, rfl, nofun, fun g hg => ?_⟩
      cases hg
      exact hS.share hq hh hp (ho _ rfl) hcount
    · rename_i hfs
      cases hfiles : a.files with
      | none =>
        rw [hfiles] at hc
        cases hc
        exact ⟨rfl, rfl, fun _ => ⟨rfl, by simpa using hfs, rfl⟩, nofun⟩
      | some g =>
        have hn := hnew g hfiles
        rw [hfiles] at hc
        simp only [hcount, if_pos hpos, filesCountInc, filesCreate, update_self, Option.map_some,
          Option.some.injEq, Prod.mk.injEq] at hc
        obtain ⟨rfl, rfl⟩ := hc
        refine ⟨rfl, rfl, nofun, fun g' hg => ?_⟩
        cases hg
        have hin := (hS.create hq hs hn).install hq hh (update_self ..)
        rw [update_idem, update_idem] at hin
        rw [update_idem]
        rwa [update_none hs] at hin

end

/-! ## The steps -/

theorem stageOf_eq {st : Stage} :
    s.stageOf p = some st ↔ ∃ h, s.procs p = some h ∧ h.stage = st := by
  rw [stageOf, Option.map_eq_some_iff]

/-- A process that is there, read off. -/
theorem read (hp : s.procs p = some h) : s.heldMm p = h.heldMm ∧ s.loadedMm p = h.loadedMm ∧
    s.heldFiles p = h.heldFiles ∧ s.closedFiles p = h.closedFiles := by
  simp only [heldMm, loadedMm, heldFiles, closedFiles, hp, Option.bind_some, and_self]

theorem read_none (hp : s.procs p = none) : s.heldMm p = none ∧ s.loadedMm p = none ∧
    s.heldFiles p = none ∧ s.closedFiles p = none := by
  simp only [heldMm, loadedMm, heldFiles, closedFiles, hp, Option.bind_none, and_self]

namespace Inv

theorem fork {vm fs : Bool} (hI : Inv s) (hl : Legal s (.fork p q vm fs a))
    (hr : Releasing s (.fork p q vm fs a)) (hs : s.doFork p q vm fs a = some s') : Inv s' := by
  obtain ⟨hrun, hlt, hqn, hnm, hnf⟩ := hl
  have hq : q ∈ pids := Finset.mem_range.2 hlt
  obtain ⟨h, hp, hst⟩ := stageOf_eq.1 hrun
  obtain ⟨hm, -, hf, -⟩ := read hp
  obtain ⟨hm', hl', hf', hc'⟩ := read_none hqn
  simp only [Sharer.heldMm, Sharer.heldFiles, hst] at hm hf
  have hpid := hI.fit.pid p h hp
  simp only [doFork, hp, Option.bind_some] at hs
  split at hs
  · cases hs
    exact hI
  · rename_i hproc
    obtain ⟨⟨r, s₁⟩, hcm, hs⟩ := Option.bind_eq_some_iff.1 hs
    obtain ⟨hpr₁, hfi₁, hn₁, hsome₁⟩ :=
      copyMm_spec hI.mm hpid hq (fun m e => hm.trans e) hm' hl' hnm hcm
    cases r with
    | none =>
      have hsame : s₁ = s := Shares.ext hpr₁ (hn₁ rfl) hfi₁
      cases hs
      rwa [hsame]
    | some mm =>
      obtain ⟨hmm, hnone, hS₁⟩ := hsome₁ mm rfl
      obtain ⟨⟨r, s₂⟩, hcf, hs⟩ := Option.map_eq_some_iff.1 hs
      obtain ⟨hpr₂, hmm₂, hn₂, hsome₂⟩ := copyFiles_spec (hfi₁ ▸ hI.files) hpid hq
        (fun f e => hf.trans e) hf' hc' (hfi₁ ▸ hnf) hcf
      cases r with
      | none =>
        -- nothing has been done to the `mm_struct`s
        obtain ⟨hs₂, hfs, haf⟩ := hn₂ rfl
        have hmn : mm = none := by
          by_contra hne
          obtain ⟨h1, h2⟩ := hmm hne
          obtain h3 | h3 := hr (by simpa using hproc) ⟨⟨h, hp, h1⟩, h2⟩
          · rw [hfs] at h3
            cases h3
          · exact h3 haf
        have hsame : s₁ = s := Shares.ext hpr₁ (hnone hmn) hfi₁
        rw [← hs, hs₂, hsame]
        exact hI
      | some f =>
        subst hs
        have hS₂ := hsome₂ f rfl
        refine Inv.setProc (h := ⟨.running, mm, some f⟩) hI.fit hq (by simp) nofun nofun ?_ ?_ ?_
        · dsimp only [Shares.setProc]
          rw [hpr₂, hpr₁]
        · dsimp only [Shares.setProc, Sharer.heldMm, Sharer.loadedMm]
          rw [hmm₂, update_none hl']
          exact hS₁
        · dsimp only [Shares.setProc, Sharer.heldFiles, Sharer.closedFiles]
          rw [update_none hc']
          exact hS₂

/-- `do_exit` of a process that has an `mm_struct`. -/
theorem exit (hI : Inv s) (hp : s.procs p = some h) (hst : h.stage = .running) (hm : h.mm ≠ none)
    (hs : s.doExit p = some s') : Inv s' := by
  obtain ⟨m, hm⟩ := Option.ne_none_iff_exists'.1 hm
  obtain ⟨f, hf⟩ := Option.ne_none_iff_exists'.1 (hI.fit.files p h hp)
  obtain ⟨h1, h2, h3, h4⟩ := read hp
  simp only
    [Sharer.heldMm, Sharer.loadedMm, Sharer.heldFiles, Sharer.closedFiles, hst] at h1 h2 h3 h4
  have hpid := hI.fit.pid p h hp
  obtain ⟨s₁, hput, hpr₁, hfi₁, hS₁⟩ := putMm_spec hI.mm hpid (h1.trans hm) h2
  obtain ⟨b, s₂, hputf, hpr₂, hmm₂, hS₂⟩ :=
    putFiles_spec (s := s₁) (hfi₁ ▸ hI.files) hpid (h3.trans hf) h4
  have hexit : s.doExit p = if p = 0 ∨ p = 1 then none else
      some (s₂.setProc p ⟨if b = true then .closing else .zombie, none, h.filesp⟩) := by
    unfold doExit
    simp only [hp, Option.bind_some, hm, hput, hf, hputf, Option.map_some]
  rw [hexit] at hs
  split at hs
  · cases hs
  · cases hs
    refine Inv.setProc (h := ⟨if b = true then .closing else .zombie, none, h.filesp⟩) hI.fit hpid
      (by simp [hf]) (fun _ _ => rfl) (fun _ => rfl) ?_ ?_ ?_
    · dsimp only [Shares.setProc]
      rw [hpr₂, hpr₁]
    · dsimp only [Shares.setProc]
      rw [hmm₂]
      cases b
      · exact (update_none h2).symm ▸ hS₁
      · exact (update_none h2).symm ▸ hS₁
    · cases b
      · exact hS₂
      · rw [if_pos rfl, ← hf] at hS₂
        exact hS₂

/-- `files_destroy` at the end of `do_exit`. -/
theorem closed (hI : Inv s) (hl : Legal s (.closed p)) (hs : s.exitClosed p = some s') :
    Inv s' := by
  obtain ⟨h, hp, hst⟩ := stageOf_eq.1 hl
  obtain ⟨f, hf⟩ := Option.ne_none_iff_exists'.1 (hI.fit.files p h hp)
  obtain ⟨h1, h2, h3, h4⟩ := read hp
  simp only
    [Sharer.heldMm, Sharer.loadedMm, Sharer.heldFiles, Sharer.closedFiles, hst] at h1 h2 h3 h4
  have hpid := hI.fit.pid p h hp
  have hmm := hI.fit.closing p h hp hst
  have hzero := hI.files.zero p hpid f (h4.trans hf)
  simp only [exitClosed, hp, hf, filesDestroy, hzero, Option.bind_some, if_true, Option.map_some,
    Option.some.injEq] at hs
  subst hs
  refine Inv.setProc (h := ⟨.zombie, h.mm, some f⟩) hI.fit hpid (by simp) nofun nofun rfl ?_ ?_
  · dsimp only [Shares.setProc, Sharer.heldMm, Sharer.loadedMm]
    rw [update_none (h1.trans hmm), update_none h2]
    exact hI.mm
  · dsimp only [Shares.setProc, Sharer.heldFiles, Sharer.closedFiles]
    rw [update_none h3]
    exact hI.files.discard hpid (h4.trans hf)

theorem exec {e : ExecAnswer} (hI : Inv s) (hl : Legal s (.exec p e)) (hr : Releasing s (.exec p e))
    (hs : s.doExecve p e = some s') : Inv s' := by
  obtain ⟨h, hp, hst⟩ := stageOf_eq.1 hl
  obtain ⟨h1, h2, h3, h4⟩ := read hp
  simp only
    [Sharer.heldMm, Sharer.loadedMm, Sharer.heldFiles, Sharer.closedFiles, hst] at h1 h2 h3 h4
  have hpid := hI.fit.pid p h hp
  have hf := hI.fit.files p h hp
  simp only [doExecve, hp, Option.bind_some] at hs
  cases e with
  | refused =>
    cases hs
    exact hI
  | notOpened =>
    obtain ⟨h', hp', hm⟩ := hr p rfl
    obtain rfl : h = h' := Option.some.inj (hp.symm.trans hp')
    exact hI.exit hp hst hm hs
  | opened =>
    cases hm : h.mm with
    | none =>
      rw [hm] at hs
      cases hs
      refine Inv.setProc (h := ⟨.loading none, h.mm, h.filesp⟩) hI.fit hpid hf (fun _ _ => hm) nofun
        (by rw [hm]; rfl) ?_ ?_
      · dsimp only [Shares.setProc, Sharer.heldMm, Sharer.loadedMm]
        rw [update_none h2, ← h1, update_eq_self]
        exact hI.mm
      · dsimp only [Shares.setProc, Sharer.heldFiles, Sharer.closedFiles]
        rw [update_none h4, ← h3, update_eq_self]
        exact hI.files
    | some m =>
      obtain ⟨s₁, hput, hpr, hfi, hS⟩ := putMm_spec hI.mm hpid (h1.trans hm) h2
      rw [hm] at hs
      simp only [hput, Option.map_some, Option.some.injEq] at hs
      subst hs
      refine Inv.setProc (h := ⟨.loading none, none, h.filesp⟩) hI.fit hpid hf
        (fun _ _ => rfl) nofun
        ?_ ?_ ?_
      · dsimp only [Shares.setProc]
        rw [hpr]
      · dsimp only [Shares.setProc, Sharer.heldMm, Sharer.loadedMm]
        rw [update_none h2]
        exact hS
      · dsimp only [Shares.setProc, Sharer.heldFiles, Sharer.closedFiles]
        rw [update_none h4, ← h3, update_eq_self, hfi]
        exact hI.files

theorem create {mm : Option ℕ} (hI : Inv s) (hl : Legal s (.create p mm))
    (hr : Releasing s (.create p mm)) (hs : s.loadCreate p mm = some s') : Inv s' := by
  obtain ⟨hload, hnew⟩ := hl
  obtain ⟨h, hp, hst⟩ := stageOf_eq.1 hload
  obtain ⟨h1, h2, h3, h4⟩ := read hp
  simp only
    [Sharer.heldMm, Sharer.loadedMm, Sharer.heldFiles, Sharer.closedFiles, hst] at h1 h2 h3 h4
  have hpid := hI.fit.pid p h hp
  have hm := hI.fit.loading p h none hp hst
  simp only [loadCreate, hp, Option.bind_some] at hs
  cases mm with
  | none =>
    -- the old `mm_struct` is gone
    obtain ⟨h', hp', hm'⟩ := hr p rfl
    obtain rfl : h = h' := Option.some.inj (hp.symm.trans hp')
    exact absurd hm hm'
  | some n =>
    cases hs
    refine Inv.setProc (h := ⟨.loading (some n), h.mm, h.filesp⟩) hI.fit hpid (hI.fit.files p h hp)
      (fun _ _ => hm) nofun rfl ?_ ?_
    · dsimp only [Shares.setProc, mmCreate, Sharer.heldMm, Sharer.loadedMm]
      rw [← h1, update_eq_self]
      exact hI.mm.create hpid h2 (hnew n rfl)
    · dsimp only [Shares.setProc, mmCreate, Sharer.heldFiles, Sharer.closedFiles]
      rw [update_none h4, ← h3, update_eq_self]
      exact hI.files

theorem load {l : LoadAnswer} (hI : Inv s) (hl : Legal s (.load p l)) (hr : Releasing s (.load p l))
    (hs : s.loadIcode p l = some s') : Inv s' := by
  obtain ⟨hload, hne⟩ := hl
  obtain ⟨n, hn⟩ := Option.ne_none_iff_exists'.1 hne
  rw [hn] at hload
  obtain ⟨h, hp, hst⟩ := stageOf_eq.1 hload
  obtain ⟨h1, h2, h3, h4⟩ := read hp
  simp only
    [Sharer.heldMm, Sharer.loadedMm, Sharer.heldFiles, Sharer.closedFiles, hst] at h1 h2 h3 h4
  have hpid := hI.fit.pid p h hp
  have hm := hI.fit.loading p h _ hp hst
  have hzero := hI.mm.zero p hpid n h2
  simp only [loadIcode, hp, Option.bind_some, hst] at hs
  cases l with
  | failed =>
    obtain ⟨h', hp', hm'⟩ := hr p rfl
    obtain rfl : h = h' := Option.some.inj (hp.symm.trans hp')
    exact absurd hm hm'
  | badExec =>
    -- `exit_mmap` finds a count of 1
    simp [mmCountInc, hzero, mmDestroy, Shares.setProc] at hs
  | loaded =>
    simp only [mmCountInc, hzero, Option.map_some, Option.some.injEq] at hs
    subst hs
    refine Inv.setProc (h := ⟨.running, some n, h.filesp⟩) hI.fit hpid (hI.fit.files p h hp) nofun
      nofun rfl ?_ ?_
    · exact hI.mm.install hpid (h1.trans hm) h2
    · dsimp only [Shares.setProc, Sharer.heldFiles, Sharer.closedFiles]
      rw [update_none h4, ← h3, update_eq_self]
      exact hI.files

theorem wait (hI : Inv s) (hl : Legal s (.wait p)) :
    Inv { s with procs := update s.procs p none } := by
  obtain ⟨h, hp, hst⟩ := stageOf_eq.1 hl
  obtain ⟨h1, h2, h3, h4⟩ := read hp
  simp only
    [Sharer.heldMm, Sharer.loadedMm, Sharer.heldFiles, Sharer.closedFiles, hst] at h1 h2 h3 h4
  have hother : ∀ {q h'}, update s.procs p none q = some h' → s.procs q = some h' :=
    fun {q h'} hq => by
    by_cases hqp : q = p
    · rw [hqp, update_self] at hq
      cases hq
    · rwa [update_of_ne hqp] at hq
  refine ⟨⟨fun q h' hq => hI.fit.pid q h' (hother hq), fun q h' hq => hI.fit.files q h' (hother hq),
    fun q h' m hq => hI.fit.loading q h' m (hother hq),
    fun q h' hq => hI.fit.closing q h' (hother hq)⟩, ?_, ?_⟩
  · have hmm := hI.mm
    rw [← update_none h1, ← update_none h2] at hmm
    unfold heldMm loadedMm at hmm ⊢
    rw [bind_update, bind_update]
    exact hmm
  · have hfiles := hI.files
    rw [← update_none h3, ← update_none h4] at hfiles
    unfold heldFiles closedFiles at hfiles ⊢
    rw [bind_update, bind_update]
    exact hfiles

theorem keeps {op : ShareOp} (hI : Inv s) (hl : careful.Legal s op) (hs : step s op = some s') :
    Inv s' := by
  obtain ⟨hl, hr⟩ := hl
  cases op with
  | fork p q vm fs a => exact hI.fork hl hr hs
  | exit p =>
    obtain ⟨h, hp, hst⟩ := stageOf_eq.1 hl
    obtain ⟨h', hp', hm⟩ := hr p rfl
    obtain rfl : h = h' := Option.some.inj (hp.symm.trans hp')
    exact hI.exit hp hst hm hs
  | closed p => exact hI.closed hl hs
  | exec p a => exact hI.exec hl hr hs
  | create p mm => exact hI.create hl hr hs
  | load p a => exact hI.load hl hr hs
  | wait p =>
    cases hs
    exact hI.wait hl

theorem init (h : Init s) : Inv s := by
  obtain ⟨f, hp, hmm, hf⟩ := h
  have hproc : ∀ p h, s.procs p = some h → p = 0 ∧ h = ⟨.running, none, some f⟩ := fun p h hq => by
    rw [hp] at hq
    by_cases hp0 : p = 0
    · rw [hp0, update_self] at hq
      exact ⟨hp0, (Option.some.inj hq).symm⟩
    · rw [update_of_ne hp0] at hq
      cases hq
  have hzero : (0 : ℕ) ∈ pids := by simp [pids]
  have hempty : Shared pids (fun _ => none) (fun _ : ℕ => none) (fun _ : ℕ => (none : Option ℕ)) :=
    ⟨⟨nofun, fun _ _ => refs_eq_zero.2 fun _ _ => nofun⟩, nofun, fun _ _ _ => nofun,
      fun _ _ _ _ _ => nofun⟩
  have hread : ∀ k : Sharer → Option ℕ, (fun x => (s.procs x).bind k) =
      update (fun _ => none) 0 (k ⟨.running, none, some f⟩) := fun k => by
    rw [hp, bind_update]
    rfl
  refine ⟨⟨fun p h hq => ?_, fun p h hq => ?_, fun p h m hq => ?_, fun p h hq => ?_⟩, ?_, ?_⟩
  · rw [(hproc p h hq).1]
    exact hzero
  · rw [(hproc p h hq).2]
    simp
  · rw [(hproc p h hq).2]
    nofun
  · rw [(hproc p h hq).2]
    nofun
  · have h1 : s.heldMm = fun _ => none := (hread Sharer.heldMm).trans (update_none rfl)
    have h2 : s.loadedMm = fun _ => none := (hread Sharer.loadedMm).trans (update_none rfl)
    rw [hmm, h1, h2]
    exact hempty
  · have h1 : s.heldFiles = update (fun _ => none) 0 (some f) := hread Sharer.heldFiles
    have h2 : s.closedFiles = fun _ => none := (hread Sharer.closedFiles).trans (update_none rfl)
    have hone := (hempty.create hzero rfl (x := f) rfl).install hzero rfl (update_self ..)
    rw [update_idem, update_idem, update_none rfl] at hone
    rw [hf, h1, h2]
    exact hone

end Inv

/-! ## Results -/

/-- **Every share is released.**  The counts are the numbers of the processes that hold a structure;
    there is an `mm_struct` as long as one holds it, or one loads it, and a `files_struct` as long
    as one holds it, or the last one is destroying it. -/
theorem exit_releases (h : careful.Reach s) :
    (∀ m c, s.mms m = some c → c = refs pids s.heldMm m) ∧
    (∀ m, s.mms m ≠ none ↔ (∃ p, s.heldMm p = some m) ∨ ∃ p, s.loadedMm p = some m) ∧
    (∀ f c, s.filess f = some c → c = refs pids s.heldFiles f) ∧
    ∀ f, s.filess f ≠ none ↔ (∃ p, s.heldFiles p = some f) ∨ ∃ p, s.closedFiles p = some f := by
  have hI : Inv s := h.preserved (fun _ => Inv.init) fun _ _ _ hI hl hs => hI.keeps hl hs
  have hpid : ∀ {k : Sharer → Option ℕ} {p x}, (s.procs p).bind k = some x → p ∈ pids :=
    fun {k p x} hk => by
      obtain ⟨h, hp, -⟩ := Option.bind_eq_some_iff.1 hk
      exact hI.fit.pid p h hp
  refine ⟨hI.mm.counted, fun m => ?_, hI.files.counted, fun f => ?_⟩
  · constructor
    · intro hm
      obtain ⟨c, hc⟩ := Option.ne_none_iff_exists'.1 hm
      obtain hpos | ⟨p, -, hp⟩ := hI.mm.needed m c hc
      · obtain ⟨p, -, hp⟩ := refs_pos.1 hpos
        exact .inl ⟨p, hp⟩
      · exact .inr ⟨p, hp⟩
    · rintro (⟨p, hp⟩ | ⟨p, hp⟩)
      · obtain ⟨c, hc, -⟩ := hI.mm.held (hpid hp) hp
        simp [hc]
      · simp [hI.mm.zero p (hpid hp) m hp]
  · constructor
    · intro hf
      obtain ⟨c, hc⟩ := Option.ne_none_iff_exists'.1 hf
      obtain hpos | ⟨p, -, hp⟩ := hI.files.needed f c hc
      · obtain ⟨p, -, hp⟩ := refs_pos.1 hpos
        exact .inl ⟨p, hp⟩
      · exact .inr ⟨p, hp⟩
    · rintro (⟨p, hp⟩ | ⟨p, hp⟩)
      · obtain ⟨c, hc, -⟩ := hI.files.held (hpid hp) hp
        simp [hc]
      · simp [hI.files.zero p (hpid hp) f hp]

/-! ### Concrete runs -/

instance (s : Shares) : ∀ op, Decidable (s.Legal op)
  | .fork _ _ _ _ _ => inferInstanceAs (Decidable (_ ∧ _ ∧ _ = none ∧
      (∀ m ∈ _, s.mms m = none) ∧ ∀ f ∈ _, s.filess f = none))
  | .exit _ | .closed _ | .exec _ _ | .wait _ => inferInstanceAs (Decidable (_ = _))
  | .create _ _ => inferInstanceAs (Decidable (_ ∧ ∀ m ∈ _, s.mms m = none))
  | .load _ _ => inferInstanceAs (Decidable (_ ∧ _))

instance (s : Shares) (op : ShareOp) : Decidable (machine.Legal s op) :=
  inferInstanceAs (Decidable (s.Legal op))

instance (s : Shares) (p : ℕ) (vm : Bool) (a : ForkAnswers) : Decidable (s.CopiesMm p vm a) :=
  inferInstanceAs (Decidable ((∃ h ∈ s.procs p, h.mm ≠ none) ∧ _))

instance (s : Shares) : ∀ op, Decidable (s.Releasing op)
  | .fork _ _ _ _ _ => inferInstanceAs (Decidable (_ → CopiesMm _ _ _ _ → _))
  | .exit _ | .closed _ | .exec _ _ | .create _ _ | .load _ _ | .wait _ =>
    inferInstanceAs (Decidable (∀ p ∈ exiting _, ∃ h ∈ s.procs p, h.mm ≠ none))

instance (s : Shares) (op : ShareOp) : Decidable (careful.Legal s op) :=
  inferInstanceAs (Decidable (s.Legal op ∧ s.Releasing op))

/-- `idleproc` with the `files_struct` at 100. -/
def boot : Shares where
  procs := update (fun _ => none) 0 (some ⟨.running, none, some 100⟩)
  mms _ := none
  filess := update (fun _ => none) 100 (some 1)

theorem init_boot : Init boot := ⟨100, rfl, rfl, rfl⟩

/-- `init`, a thread that loads the first program, and its child, in which a program is loaded. -/
def twoPrograms (l : LoadAnswer) : List ShareOp :=
  [.fork 0 1 true false ⟨true, none, true, true, some 101⟩,
    .fork 1 2 true false ⟨true, none, true, true, some 102⟩,
    .exec 2 .opened, .create 2 (some 500), .load 2 .loaded,
    .fork 2 3 false false ⟨true, some 501, true, true, some 103⟩,
    .exec 3 .opened, .create 3 (some 502), .load 3 l]

/-- The second one exits: it was the last to hold its `mm_struct` and its `files_struct`. -/
theorem exit_releases_twoPrograms : ∃ s, careful.Reach s ∧ s.mms 502 = none ∧ s.mms 500 = some 1 ∧
    s.filess 103 = none ∧ refs pids s.heldMm 500 = 1 := by
  have hrun : ∃ s, careful.run boot (twoPrograms .loaded ++ [.exit 3, .closed 3]) = some s ∧
      s.mms 502 = none ∧ s.mms 500 = some 1 ∧ s.filess 103 = none :=
    ⟨_, rfl, by decide +kernel, by decide +kernel, by decide +kernel⟩
  obtain ⟨s, hrun, h1, h2, h3⟩ := hrun
  have hr : careful.Reach s := (Machine.Reach.init init_boot).run hrun
  exact ⟨s, hr, h1, h2, h3, by exact_mod_cast ((exit_releases hr).1 500 1 h2).symm⟩

/-- The second one is no program: when `load_icode` fails there is no `mm_struct`, and the process
    exits with its share of the files. -/
theorem exit_keeps_files : ∃ s, machine.Reach s ∧ s.stageOf 3 = some .zombie ∧
    s.filess 103 = some 1 ∧ ∀ p, s.heldFiles p ≠ some 103 := by
  have hrun : ∃ s, machine.run boot (twoPrograms .failed) = some s ∧ s.stageOf 3 = some .zombie ∧
      s.filess 103 = some 1 ∧ (∀ p < 4, s.heldFiles p ≠ some 103) ∧ ∀ k, s.procs (k + 4) = none :=
    ⟨_, rfl, by decide +kernel, by decide +kernel, by decide +kernel, fun k => rfl⟩
  obtain ⟨s, hrun, h1, h2, h3, h4⟩ := hrun
  refine ⟨s, (Machine.Reach.init init_boot).run hrun, h1, h2, fun p => ?_⟩
  by_cases hp : p < 4
  · exact h3 p hp
  · obtain ⟨k, rfl⟩ := Nat.exists_eq_add_of_le (not_lt.1 hp)
    rw [Nat.add_comm, (read_none (h4 k)).2.2.1]
    nofun
end Shares

end Ucore
