/-
  Runs of the inode cache.

  * `Inv.step`: every legal step succeeds, and keeps the cache consistent;
  * `inode_cache_unique`: in every state reached there is one inode for an inode number, a load
    returns it with one more reference, and an inode is freed once, when nothing refers to it.
-/
import Ucore.Fs.InodeCacheInv
import Ucore.Lib.Machine

namespace Ucore

open Intrusive HandOff

set_option linter.unusedSectionVars false

variable {P N : Type} [DecidableEq P] [DecidableEq N]

namespace InodeCache

variable {w w' : InodeCache P N} {p q : P} {n : N} {y : CachePc N} {k : ℕ} {op : CacheOp P N}

structure Inv (w : InodeCache P N) : Prop where
  lock : ∃ own, Mutex w.fsSem own fun p => (w.pc p).phase
  lists : Listed w.links (fun n => (w.inode n).ino) w.live
  loads : Loads w.pc (fun n => (w.inode n).ino) w.live
  refs : Refs w.inode w.pc w.live w.stuck
  counts : ∀ n, w.made n = w.freed n + (if n ∈ w.live then 1 else 0) ∧ w.unlinked n = w.freed n

/-! ## Steps -/

/-- A load that returns an inode returns the one that is cached under the number, with one more
    reference; if there was none, it is new. -/
def LoadOk (w w' : InodeCache P N) : Prop :=
  ∀ p k n, w'.pc p = .loaded k (.ok n) → w.pc p ≠ .loaded k (.ok n) →
    n ∈ w'.live ∧ (w'.inode n).ino = k ∧
      ((n ∈ w.live ∧ (w.inode n).ino = k ∧ (w'.inode n).refCount = (w.inode n).refCount + 1) ∨
        ((∀ m ∈ w.live, (w.inode m).ino ≠ k) ∧ (w'.inode n).refCount = 1))

/-- An inode is freed only when there is no reference to it. -/
def KeepsReferenced (w w' : InodeCache P N) : Prop :=
  ∀ n ∈ w.live, 0 < (w.inode n).refCount → n ∈ w'.live

structure Good (w w' : InodeCache P N) : Prop where
  load : LoadOk w w'
  kept : KeepsReferenced w w'

theorem LoadOk.of_pc (h : w'.pc = w.pc) : LoadOk w w' := by
  intro p k n h1 h2
  exact absurd (h ▸ h1) h2

theorem LoadOk.of_goto (h : w'.pc = Function.update w.pc p y)
    (hy : ∀ k n, y ≠ .loaded k (.ok n)) : LoadOk w w' := fun q k n h1 h2 => by
  by_cases hq : q = p
  · subst hq; rw [h, Function.update_self] at h1; exact absurd h1 (hy k n)
  · rw [h, Function.update_of_ne hq] at h1; exact absurd h1 h2

theorem KeepsReferenced.of_live (h : w.live ⊆ w'.live) : KeepsReferenced w w' :=
  fun _ hn _ => h hn

/-- A step that begins with writes other than to reference counts. -/
theorem Good.after {w₁ : InodeCache P N} (hg : Good w₁ w') (hl : w₁.live = w.live)
    (hi : ∀ m, (w₁.inode m).ino = (w.inode m).ino ∧ (w₁.inode m).refCount = (w.inode m).refCount)
    (hp : ∀ q k n, w₁.pc q = .loaded k (.ok n) → w.pc q = .loaded k (.ok n)) : Good w w' := by
  refine ⟨fun q k m h1 h2 => ?_, fun m hm hz => hg.kept m (hl ▸ hm) (by rwa [(hi m).2])⟩
  have := hg.load q k m h1 fun h => h2 (hp q k m h)
  simpa only [(hi _).1, (hi _).2, hl] using this

/-- The lock, when one process moves. -/
theorem phase_update (pc : P → CachePc N) (p : P) (y : CachePc N) :
    (fun q => (Function.update pc p y q).phase) =
      Function.update (fun q => (pc q).phase) p y.phase := by
  ext q
  by_cases hq : q = p
  · subst hq; simp
  · simp [hq]

/-- While a process is inside, no other one is freeing an inode. -/
theorem Inv.alone (h : w.Inv) (hp : (w.pc p).phase = .inside) (hq : q ≠ p) :
    (w.pc q).flushing = none := by
  obtain ⟨own, m⟩ := h.lock
  cases hf : (w.pc q).flushing with
  | none => rfl
  | some n => exact absurd (m.exclusive (CachePc.inside_of_flushing hf) hp) hq

theorem Inv.lock_lock (h : w.Inv) (hp : (w.pc p).phase = .outside) {y z : CachePc N}
    (hy : y.phase = .inside) (hz : z.phase = .waiting) :
    ∃ own, Mutex (w.lockSfsFs p y z).fsSem own fun q => ((w.lockSfsFs p y z).pc q).phase := by
  obtain ⟨own, m⟩ := h.lock
  have hd := m.down hp
  rw [← hy, ← hz, ← apply_ite CachePc.phase, ← phase_update] at hd
  exact ⟨_, hd⟩

theorem lock_unlock {own : Option P} (m : Mutex w.fsSem own fun q => (w.pc q).phase)
    (hp : (w.pc p).phase = .inside) (hy : y.phase = .outside) :
    ∃ own, Mutex w.fsSem.up.1 own fun q => (Function.update w.pc p y q).phase := by
  have hu := m.up hp
  rw [← hy, ← phase_update] at hu
  exact ⟨_, hu⟩

/-- **`lock_sfs_fs`** of `sfs_load_inode`. -/
theorem Inv.loadInode (h : w.Inv) (hp : Idle (w.pc p)) (hk : k < 2 ^ 32) :
    (w.lockSfsFs p (.loadLocked k) (.loadAsleep k)).Inv ∧
      Good w (w.lockSfsFs p (.loadLocked k) (.loadAsleep k)) := by
  obtain ⟨h1, -, h3, h4⟩ := CachePc.of_idle hp
  refine ⟨⟨h.lock_lock h1 rfl rfl, h.lists, ?_, ?_, h.counts⟩, ?_, .of_live subset_rfl⟩
  · simp only [lockSfsFs, goto]
    split_ifs
    all_goals
      exact h.loads.move
        (fun k' hk' => by simp only [CachePc.loads, Option.some.injEq] at hk'; omega)
        fun k' hk' => by cases hk'
  · simp only [lockSfsFs, goto]
    split_ifs
    all_goals exact h.refs.move h3.symm h4.symm
  · refine LoadOk.of_goto (p := p) rfl fun k' n => ?_
    split_ifs <;> simp

/-- **The return of a `down`** that slept. -/
theorem Inv.wake (h : w.Inv) (hq : p ∉ w.fsSem.queue) (hp : (w.pc p).phase = .waiting)
    (hy : y.phase = .inside) (hl : y.loads = (w.pc p).loads) (hyl : ∀ k, y ≠ .loadReading k)
    (hr : y.reclaiming = (w.pc p).reclaiming) (hf : y.flushing = (w.pc p).flushing) :
    (w.goto p y).Inv ∧ Good w (w.goto p y) := by
  obtain ⟨own, m⟩ := h.lock
  refine ⟨⟨⟨own, ?_⟩, h.lists, h.loads.move (fun k hk => h.loads.range p k (hl ▸ hk))
    fun k hk => absurd hk (hyl k), h.refs.move hr hf, h.counts⟩, .of_goto rfl ?_,
      .of_live subset_rfl⟩
  · have := m.resume hp hq
    rw [← hy] at this
    simpa only [goto, phase_update] using this
  · rintro k n rfl; cases hy

/-- A load that leaves without an inode. -/
theorem Inv.loadLeave (h : w.Inv) (hp : (w.pc p).phase = .inside)
    (hr : (w.pc p).reclaiming = none) (hf : (w.pc p).flushing = none) (e : Errno) :
    (w.unlockSfsFs p (.loaded k (.error e))).Inv ∧
      Good w (w.unlockSfsFs p (.loaded k (.error e))) := by
  obtain ⟨own, m⟩ := h.lock
  exact ⟨⟨lock_unlock m hp rfl, h.lists, h.loads.leave rfl, h.refs.move hr.symm hf.symm, h.counts⟩,
    .of_goto rfl (by simp), .of_live subset_rfl⟩

/-- An update of the counters of an inode in use. -/
theorem Inv.edit (h : w.Inv) {g : Inode} (stuck : N → Bool) (hi : g.ino = (w.inode n).ino)
    (hr : Refs (Function.update w.inode n g) w.pc w.live stuck) :
    Inv { w.setInode n g with stuck := stuck } := by
  have hino : ∀ m, (Function.update w.inode n g m).ino = (w.inode m).ino := fun m => by
    by_cases hm : m = n
    · subst hm; rw [Function.update_self, hi]
    · rw [Function.update_of_ne hm]
  exact ⟨h.lock, h.lists.congr fun m _ => hino m, h.loads.congr (fun _ hm => hm) fun m _ => hino m,
    hr, h.counts⟩

/-- **`lookup_sfs_nolock`** finds the inode, if there is one. -/
theorem Inv.loadLookup (h : w.Inv) (hp : w.pc p = .loadLocked k) (mem : Bool) :
    ∃ w', w.sfsLoadLookup p k mem = some w' ∧ w'.Inv ∧ Good w w' := by
  have hin : (w.pc p).phase = .inside := by rw [hp]; rfl
  have hr : (w.pc p).reclaiming = none ∧ (w.pc p).flushing = none := by rw [hp]; exact ⟨rfl, rfl⟩
  obtain ⟨ns, hns, hf⟩ := h.lists.find k
  cases hfind : ns.find? fun n => (w.inode n).ino = k with
  | none =>
    have hno : ∀ n ∈ w.live, (w.inode n).ino ≠ k := fun n hn hk => by
      have := (hf n).2 ⟨hn, hk⟩
      rw [hfind] at this; cases this
    have hl : w.lookupSfsNolock k = some (none, w) := by
      simp only [lookupSfsNolock, sfsHashList, Option.bind_eq_bind]
      rw [← Option.bind_assoc, hns, Option.bind_some, hfind]
    simp only [sfsLoadLookup, hl, Option.bind_eq_bind, Option.bind_some]
    cases mem with
    | false => exact ⟨_, rfl, h.loadLeave hin hr.1 hr.2 _⟩
    | true =>
      obtain ⟨own, m⟩ := h.lock
      refine ⟨_, rfl, ⟨⟨own, ?_⟩, h.lists, h.loads.move (fun k' hk' => ?_) fun k' hk' => ?_,
        h.refs.move hr.1.symm hr.2.symm, h.counts⟩, .of_goto rfl (by simp), .of_live subset_rfl⟩
      · simp only [if_true, goto, phase_update]
        rwa [show (CachePc.loadReading k : CachePc N).phase = (w.pc p).phase from hin.symm,
          Function.update_eq_self]
      · exact h.loads.range p k' (by rw [hp]; exact hk')
      · cases hk'; exact hno
  | some n =>
    obtain ⟨hn, hnk⟩ := (hf n).1 hfind
    have hge := h.refs.opens n hn
    -- the last process that released `n`, if any, has still to decrement `reclaim_count`
    set g : Inode := { w.inode n with
      refCount := (w.inode n).refCount + 1
      reclaimCount := if (w.inode n).refCount + 1 = 1 then (w.inode n).reclaimCount + 1
        else (w.inode n).reclaimCount } with hg
    have hl : w.lookupSfsNolock k = some (some n,
        { w.setInode n g with stuck := Function.update w.stuck n false }) := by
      simp only [lookupSfsNolock, sfsHashList, Option.bind_eq_bind]
      rw [← Option.bind_assoc, hns, Option.bind_some, hfind]
      simp only [inodeRefInc, setInode, Function.update_self, hg]
      split_ifs <;> simp
    have hnf : ∀ q, (w.pc q).flushing ≠ some n := fun q hq => by
      by_cases hqp : q = p
      · subst hqp; rw [hr.2] at hq; cases hq
      · rw [h.alone hin hqp] at hq; cases hq
    have hi : Inv { w.setInode n g with stuck := Function.update w.stuck n false } := by
      refine h.edit _ rfl (h.refs.edit ⟨hge.1, by simp only [hg]; omega⟩ (fun _ => ?_)
        (fun q hq => absurd hq (hnf q)) (fun _ hz => ?_) fun m hm => Function.update_of_ne hm ..)
      · simp only [hg]
        split_ifs <;> omega
      · simp only [hg] at hz; omega
    obtain ⟨own, m⟩ := hi.lock
    simp only [sfsLoadLookup, hl, Option.bind_eq_bind, Option.bind_some]
    refine ⟨_, rfl, ⟨lock_unlock m hin rfl, hi.lists, hi.loads.leave rfl,
      hi.refs.move hr.1.symm hr.2.symm, hi.counts⟩, fun q k' n' h1 h2 => ?_, .of_live subset_rfl⟩
    by_cases hqp : q = p
    · subst hqp
      simp only
        [unlockSfsFs, goto, Function.update_self, CachePc.loaded.injEq, Except.ok.injEq] at h1
      obtain ⟨rfl, rfl⟩ := h1
      refine ⟨hn, ?_, Or.inl ⟨hn, hnk, ?_⟩⟩
      · simp only [unlockSfsFs, goto, setInode, Function.update_self]; exact hnk
      · simp only [unlockSfsFs, goto, setInode, Function.update_self, hg]
    · simp only [unlockSfsFs, goto, Function.update_of_ne hqp] at h1
      exact absurd h1 h2

/-- **`sfs_create_inode`**, linked into the cache. -/
theorem Inv.loadCreate (h : w.Inv) (hp : w.pc p = .loadReading k) {ret : Except Errno ℕ}
    {mem : Option N} (hm : ∀ n ∈ mem, n ∉ w.live) (hret : ret ≠ .ok 0) :
    ∃ w', w.sfsLoadCreate p k ret mem = some w' ∧ w'.Inv ∧ Good w w' := by
  have hin : (w.pc p).phase = .inside := by rw [hp]; rfl
  have hr : (w.pc p).reclaiming = none ∧ (w.pc p).flushing = none := by rw [hp]; exact ⟨rfl, rfl⟩
  rcases ret with e | nlinks
  · exact ⟨_, rfl, h.loadLeave hin hr.1 hr.2 _⟩
  have hnl : nlinks ≠ 0 := fun h0 => hret (h0 ▸ rfl)
  obtain ⟨nl, rfl⟩ := Nat.exists_eq_succ_of_ne_zero hnl
  cases mem with
  | none => exact ⟨_, rfl, h.loadLeave hin hr.1 hr.2 _⟩
  | some n =>
    have hn := hm n rfl
    have hno := h.loads.missing p k hp
    have hk := h.loads.range p k (by rw [hp]; rfl)
    set g : Inode := ⟨1, 0, nl + 1, k, false, 1⟩ with hg
    have hupd : ∀ m ∈ w.live, Function.update w.inode n g m = w.inode m := fun m hml =>
      Function.update_of_ne (by rintro rfl; exact hn hml) ..
    set w₁ := (w.sfsCreateInode n (nl + 1) k).sfsSetLinks n with hw₁
    have hinode : w₁.inode = Function.update w.inode n g := by
      simp [hw₁, sfsSetLinks, sfsCreateInode, inodeRefInc, setInode, hg]
    have hgn : Function.update w.inode n g n = g := Function.update_self ..
    have hlists : Listed w₁.links (fun m => (w₁.inode m).ino) w₁.live := by
      have hl : Listed w.links (fun m => (Function.update w.inode n g m).ino) w.live :=
        h.lists.congr fun m hml => by rw [hupd m hml]
      have := hl.add hn (fun m hml => by
        rw [hupd m hml, hgn]; exact hno m hml) (by rw [hgn]; exact hk)
      simp only [hinode]
      simpa only [hgn, hw₁, sfsSetLinks, sfsCreateInode, inodeRefInc, setInode,
        Function.update_self] using this
    have hrefs : Refs w₁.inode w.pc (insert n w.live) (Function.update w.stuck n false) :=
      hinode ▸ h.refs.create hn ⟨rfl, rfl, rfl⟩ fun m hmn => Function.update_of_ne hmn ..
    obtain ⟨own, mu⟩ := h.lock
    refine ⟨_, rfl, ⟨lock_unlock mu hin rfl, hlists, ?_, hrefs.move hr.1.symm hr.2.symm,
      fun m => ?_⟩, fun q k' n' h1 h2 => ?_, .of_live (Finset.subset_insert _ _)⟩
    · -- no other load is reading
      refine ⟨(h.loads.leave rfl).range, fun q k' hq m hml => ?_⟩
      by_cases hqp : q = p
      · subst hqp; simp [unlockSfsFs, goto] at hq
      · simp only [unlockSfsFs, goto, Function.update_of_ne hqp] at hq
        exact absurd (mu.exclusive (by rw [show w.pc q = _ from hq]; rfl) hin) hqp
    · obtain ⟨h1, h2⟩ := h.counts m
      simp only [unlockSfsFs, goto, sfsSetLinks, sfsCreateInode, inodeRefInc, setInode]
      refine ⟨?_, h2⟩
      by_cases hmn : m = n
      · subst hmn; simp [hn] at h1; simp [h1]
      · simp [hmn, h1]
    · by_cases hqp : q = p
      · subst hqp
        simp only [unlockSfsFs, goto, Function.update_self, CachePc.loaded.injEq,
          Except.ok.injEq] at h1
        obtain ⟨rfl, rfl⟩ := h1
        refine ⟨Finset.mem_insert_self _ _, ?_, Or.inr ⟨hno, ?_⟩⟩
        · show (w₁.inode n).ino = k; rw [hinode, hgn]
        · show (w₁.inode n).refCount = 1; rw [hinode, hgn]
      · simp only [unlockSfsFs, goto, Function.update_of_ne hqp] at h1
        exact absurd h1 h2

/-- An inode in use is not being freed. -/
theorem Inv.not_flushing (h : w.Inv) (hz : 0 < (w.inode n).refCount) :
    (w.pc p).flushing ≠ some n := fun hf => by
  have := (h.refs.flushing p n hf).1
  omega

/-- An update of an inode in use that leaves it in use. -/
theorem Inv.use (h : w.Inv) {g : Inode} (hz : 0 < (w.inode n).refCount)
    (hi : g.ino = (w.inode n).ino) (ho : 0 ≤ g.openCount ∧ g.openCount ≤ g.refCount)
    (hg : 0 < g.refCount) (hr : g.reclaimCount = (w.inode n).reclaimCount) :
    (w.setInode n g).Inv ∧ Good w (w.setInode n g) := by
  refine ⟨h.edit w.stuck hi (h.refs.edit ho (fun _ => ?_)
    (fun q hq => absurd hq (h.not_flushing hz)) (fun _ hgz => by omega) fun _ _ => rfl),
    .of_pc rfl, .of_live subset_rfl⟩
  rw [if_pos hg, if_pos hz, hr]

/-- An inode that nothing refers to passes the check of `vop_reclaim` and what it calls. -/
theorem inodeCheck_free {g : Inode} (hr : g.refCount = 0) (ho : g.openCount = 0) :
    inodeCheck g = true := by
  rw [inodeCheck, decide_eq_true_eq, hr, ho]
  decide

/-- **`inode_ref_dec`** -/
theorem Inv.refDec (h : w.Inv) (hp : Idle (w.pc p)) (hn : n ∈ w.live)
    (ho : (w.inode n).openCount < (w.inode n).refCount) :
    ∃ w', w.inodeRefDec p n = some w' ∧ w'.Inv ∧ Good w w' := by
  have hge := h.refs.opens n hn
  have hpos : 0 < (w.inode n).refCount := by omega
  obtain ⟨h1, -, h3, h4⟩ := CachePc.of_idle hp
  simp only [inodeRefDec, if_pos hpos]
  by_cases hz : (w.inode n).refCount - 1 = 0
  · have hone : (w.inode n).refCount = 1 := by omega
    rw [if_pos hz, if_pos (inodeCheck_free hz (by simp only; omega)), hz]
    set w₁ := w.setInode n { w.inode n with refCount := 0 } with hw₁
    have hino : ∀ m, (w₁.inode m).ino = (w.inode m).ino := fun m => by
      by_cases hm : m = n
      · subst hm; simp [hw₁, setInode]
      · simp [hw₁, setInode, hm]
    have hlists : Listed w₁.links (fun m => (w₁.inode m).ino) w₁.live :=
      h.lists.congr fun m _ => hino m
    have hloads : Loads w₁.pc (fun m => (w₁.inode m).ino) w₁.live :=
      h.loads.congr (fun _ hm => hm) fun m _ => hino m
    refine ⟨_, rfl, ⟨h.lock_lock h1 rfl rfl, hlists, ?_, ?_, h.counts⟩, ?_, .of_live subset_rfl⟩
    · simp only [lockSfsFs, goto]
      split_ifs
      all_goals exact hloads.leave rfl
    · simp only [lockSfsFs, goto]
      split_ifs
      all_goals exact h.refs.drop hn ⟨h3, h4⟩ ⟨rfl, rfl⟩ hone (by omega)
    · refine LoadOk.of_goto (p := p) rfl fun k' n => ?_
      split_ifs <;> simp
  · rw [if_neg hz]
    obtain ⟨hi, -⟩ := h.use (g := { w.inode n with refCount := (w.inode n).refCount - 1 }) hpos rfl
      ⟨hge.1, by simp only; omega⟩ (by simp only; omega) rfl
    obtain ⟨own, m⟩ := hi.lock
    refine ⟨_, rfl, ⟨⟨own, ?_⟩, hi.lists, hi.loads.leave rfl, hi.refs.move h3.symm h4.symm,
      hi.counts⟩, .of_goto (p := p) (y := .out) rfl (by simp), .of_live subset_rfl⟩
    simp only [goto, phase_update]
    rwa [show (CachePc.out : CachePc N).phase = ((w.setInode n _).pc p).phase from h1.symm,
      Function.update_eq_self]

/-- **`sfs_remove_links` and `vop_kill`** -/
theorem Inv.reclaimFree (h : w.Inv) (hp : (w.pc p).flushing = some n) :
    ∃ w', w.sfsReclaimFree p n = some w' ∧ w'.Inv ∧ Good w w' := by
  have hin := CachePc.inside_of_flushing hp
  have hpr : (w.pc p).reclaiming = none := by
    cases hpc : w.pc p <;> simp [hpc, CachePc.flushing, CachePc.reclaiming] at hp ⊢
  have hn := h.refs.pcLive p n (Or.inr hp)
  obtain ⟨hz, -⟩ := h.refs.flushing p n hp
  have hge := h.refs.opens n hn
  obtain ⟨own, m⟩ := h.lock
  have hkill : ((w.sfsRemoveLinks n).unlockSfsFs p .out |>.inode n).refCount = 0 ∧
      ((w.sfsRemoveLinks n).unlockSfsFs p .out |>.inode n).openCount = 0 := by
    simp only [unlockSfsFs, goto, sfsRemoveLinks]; omega
  refine ⟨_, if_pos hkill, ⟨lock_unlock m hin rfl, h.lists.del hn, ?_, ?_, fun k => ?_⟩, ?_,
    fun k hk hkz => ?_⟩
  · exact (h.loads.congr (fun k hk => Finset.mem_of_mem_erase hk) fun _ _ => rfl).leave rfl
  · exact h.refs.free hp hpr (fun q hq => h.alone hin hq) ⟨rfl, rfl⟩
  · obtain ⟨h1, h2⟩ := h.counts k
    simp only [unlockSfsFs, goto, sfsRemoveLinks]
    by_cases hkn : k = n
    · subst hkn; simp [hn] at h1; simp [h1, h2]
    · simp [hkn, h1, h2]
  · exact .of_goto (p := p) (y := .out) rfl (by simp)
  · refine Finset.mem_erase.2 ⟨?_, hk⟩
    rintro rfl; omega

/-- An inode about to be freed may be written. -/
theorem Inv.setDirty (h : w.Inv) (hp : (w.pc p).flushing = some n) (d : Bool) :
    (w.setDirty n d).Inv ∧ ∀ w', Good (w.setDirty n d) w' → Good w w' := by
  have hn := h.refs.pcLive p n (Or.inr hp)
  refine ⟨h.edit w.stuck rfl (h.refs.edit (h.refs.opens n hn) (fun _ => rfl)
    (fun q hq => h.refs.flushing q n hq) (fun _ hz => ⟨hz, rfl⟩) fun _ _ => rfl),
    fun w' hg => hg.after rfl (fun m => ?_) fun _ _ _ hq => hq⟩
  by_cases hm : m = n
  · subst hm; simp [InodeCache.setDirty, setInode]
  · simp [InodeCache.setDirty, setInode, hm]

/-- **The flush** of an inode without references. -/
theorem Inv.reclaimFlush (h : w.Inv) (hp : (w.pc p).flushing = some n) :
    ∃ w', w.sfsReclaimFlush p n = some w' ∧ w'.Inv ∧ Good w w' := by
  have hn := h.refs.pcLive p n (Or.inr hp)
  obtain ⟨hz, -⟩ := h.refs.flushing p n hp
  have hge := h.refs.opens n hn
  simp only [sfsReclaimFlush]
  split_ifs with hd hc
  · have hpr : (w.pc p).reclaiming = none := by
      cases hpc : w.pc p <;> simp [hpc, CachePc.flushing, CachePc.reclaiming] at hp ⊢
    have hin := CachePc.inside_of_flushing hp
    obtain ⟨own, m⟩ := h.lock
    refine ⟨_, rfl, ⟨⟨own, ?_⟩, h.lists, h.loads.leave rfl, h.refs.move hpr.symm hp.symm, h.counts⟩,
      .of_goto (p := p) (y := .fsyncing n) rfl (by simp), .of_live subset_rfl⟩
    simp only [goto, phase_update]
    rwa [show (CachePc.fsyncing n).phase = (w.pc p).phase from hin.symm, Function.update_eq_self]
  · exact absurd (inodeCheck_free hz (by omega)) hc
  · exact h.reclaimFree hp

/-- **The flush fails**: the inode stays. -/
theorem Inv.reclaimFailed (h : w.Inv) (hp : (w.pc p).flushing = some n) :
    (w.sfsReclaimFailed p n).Inv ∧ Good w (w.sfsReclaimFailed p n) := by
  have hpr : (w.pc p).reclaiming = none := by
    cases hpc : w.pc p <;> simp [hpc, CachePc.flushing, CachePc.reclaiming] at hp ⊢
  obtain ⟨own, m⟩ := h.lock
  exact ⟨⟨lock_unlock m (CachePc.inside_of_flushing hp) rfl, h.lists, h.loads.leave rfl,
    h.refs.fail hp hpr ⟨rfl, rfl⟩, h.counts⟩, .of_goto (p := p) (y := .out) rfl (by simp),
    .of_live subset_rfl⟩

/-- **The check in `sfs_reclaim`** -/
theorem Inv.reclaimCheck (h : w.Inv) (hp : w.pc p = .reclaimLocked n) :
    ∃ w', w.sfsReclaimCheck p n = some w' ∧ w'.Inv ∧ Good w w' := by
  have hin : (w.pc p).phase = .inside := by rw [hp]; rfl
  have hr : (w.pc p).reclaiming = some n := by rw [hp]; rfl
  have hn := h.refs.pcLive p n (Or.inl hr)
  have hge := h.refs.opens n hn
  have hnf : ∀ q, (w.pc q).flushing = none := fun q => by
    by_cases hq : q = p
    · subst hq; rw [hp]; rfl
    · exact h.alone hin hq
  set g : Inode := { w.inode n with reclaimCount := (w.inode n).reclaimCount - 1 } with hg
  have hino : ∀ m, (Function.update w.inode n g m).ino = (w.inode m).ino ∧
      (Function.update w.inode n g m).refCount = (w.inode m).refCount := fun m => by
    by_cases hm : m = n
    · subst hm; simp [hg]
    · simp [hm]
  have hlists : Listed w.links (fun m => (Function.update w.inode n g m).ino) w.live :=
    h.lists.congr fun m _ => (hino m).1
  have hloads : Loads w.pc (fun m => (Function.update w.inode n g m).ino) w.live :=
    h.loads.congr (fun _ hm => hm) fun m _ => (hino m).1
  have hpos : 0 < (w.inode n).reclaimCount :=
    (h.refs.check (y := if (w.inode n).reclaimCount - 1 ≠ 0 ∨ (w.inode n).refCount ≠ 0 then .out
      else .fsyncing n) hr hnf (by split_ifs <;> rfl) (by split_ifs <;> rfl)).1
  obtain ⟨own, m⟩ := h.lock
  simp only [sfsReclaimCheck, if_pos hpos, ← hg]
  by_cases hbusy : g.reclaimCount ≠ 0 ∨ g.refCount ≠ 0
  · rw [if_pos hbusy]
    have hrefs := (h.refs.check (y := .out) hr hnf rfl (by rw [if_pos hbusy]; rfl)).2
    exact ⟨_, rfl, ⟨lock_unlock m hin rfl, hlists, hloads.leave rfl, hrefs, h.counts⟩,
      .of_goto (p := p) (y := .out) rfl (by simp), .of_live subset_rfl⟩
  rw [if_neg hbusy]
  -- nothing is in the way: `p` is going to free the inode
  have hmove : ∀ y : CachePc N, y.phase = .inside → y.loads = none → y.reclaiming = none →
      y.flushing = some n → ((w.setInode n g).goto p y).Inv := fun y h1 h2 h3 h4 => by
    have hrefs := (h.refs.check (y := y) hr hnf h3 (by rw [if_neg hbusy]; exact h4)).2
    refine ⟨⟨own, ?_⟩, hlists, hloads.leave h2, hrefs, h.counts⟩
    simp only [goto, phase_update, setInode]
    rwa [show y.phase = (w.pc p).phase from h1.trans hin.symm, Function.update_eq_self]
  push Not at hbusy
  split_ifs with hnl hc
  · exact ⟨_, rfl, hmove _ rfl rfl rfl rfl, .of_goto (p := p) rfl (by simp), .of_live subset_rfl⟩
  · exact absurd (inodeCheck_free hbusy.2 (by simp only [hg] at hbusy ⊢; omega)) hc
  · -- `sfs_reclaim` goes on in the same step
    have hi := hmove (.fsyncing n) rfl rfl rfl rfl
    obtain ⟨w', hw', hi', hg'⟩ := hi.reclaimFlush (p := p) (n := n)
      (by simp only [goto, Function.update_self]; rfl)
    refine ⟨w', ?_, hi', hg'.after rfl hino fun q k m' hq => ?_⟩
    · rw [← hw']
      simp [sfsReclaimFlush, sfsReclaimFree, goto, unlockSfsFs, inodeKill, sfsRemoveLinks, setInode]
    · by_cases hqp : q = p
      · subst hqp; simp [goto] at hq
      · simpa [goto, setInode, hqp] using hq

/-! ## Runs -/

/-- **Every legal step** succeeds. -/
theorem Inv.step (h : w.Inv) (hl : w.Legal op) :
    ∃ w', w.step op = some w' ∧ w'.Inv ∧ Good w w' := by
  have stay : ∃ w', some w = some w' ∧ w'.Inv ∧ Good w w' :=
    ⟨w, rfl, h, .of_pc rfl, .of_live subset_rfl⟩
  cases op with
  | loadInode p k => exact ⟨_, rfl, h.loadInode hl.1 hl.2⟩
  | wake p =>
    simp only [InodeCache.step]
    split
    next k hp =>
      exact ⟨_, rfl, h.wake hl (by rw [hp]; rfl) rfl (by rw [hp]; rfl) (by simp) (by rw [hp]; rfl)
        (by rw [hp]; rfl)⟩
    next n hp =>
      exact ⟨_, rfl, h.wake hl (by rw [hp]; rfl) rfl (by rw [hp]; rfl) (by simp) (by rw [hp]; rfl)
        (by rw [hp]; rfl)⟩
    next => exact stay
  | enter p mem =>
    simp only [InodeCache.step]
    split
    next k hp => exact h.loadLookup hp mem
    next n hp => exact h.reclaimCheck hp
    next => exact stay
  | read p ret mem =>
    simp only [InodeCache.step]
    split
    next k hp => exact h.loadCreate hp hl.1 hl.2
    next => exact stay
  | refInc n =>
    have hge := h.refs.opens n hl.1
    exact ⟨_, rfl,
      h.use hl.2 rfl ⟨hge.1, by simp only; omega⟩ (by have := hl.2; simp only; omega) rfl⟩
  | refDec p n => exact h.refDec hl.1 hl.2.1 hl.2.2
  | openInc n =>
    have hge := h.refs.opens n hl.1
    have := hl.2
    exact ⟨_, rfl, h.use (by omega) rfl ⟨by simp only; omega, by simp only; omega⟩
      (by simp only; omega) rfl⟩
  | openDec n =>
    have hge := h.refs.opens n hl.1
    have := hl.2
    exact ⟨_, if_pos hl.2, h.use (by omega) rfl ⟨by simp only; omega, by simp only; omega⟩
      (by simp only; omega) rfl⟩
  | touch n nl d => exact ⟨_, rfl, h.use hl.2 rfl (h.refs.opens n hl.1) hl.2 rfl⟩
  | truncated p ret d =>
    simp only [InodeCache.step]
    split
    next _ _ n hp =>
      have hf : (w.pc p).flushing = some n := by rw [hp]; rfl
      obtain ⟨hi, hg⟩ := h.setDirty hf d
      obtain ⟨w', hw', hi', hg'⟩ := hi.reclaimFlush hf
      exact ⟨w', hw', hi', hg w' hg'⟩
    next _ _ n e hp =>
      have hf : (w.pc p).flushing = some n := by rw [hp]; rfl
      obtain ⟨hi, hg⟩ := h.setDirty hf d
      obtain ⟨hi', hg'⟩ := hi.reclaimFailed hf
      exact ⟨_, rfl, hi', hg _ hg'⟩
    next => exact stay
  | fsynced p ret =>
    simp only [InodeCache.step]
    split
    next _ _ n hp =>
      have hf : (w.pc p).flushing = some n := by rw [hp]; rfl
      obtain ⟨hi, hg⟩ := h.setDirty hf false
      obtain ⟨w', hw', hi', hg'⟩ := hi.reclaimFree hf
      exact ⟨w', hw', hi', hg w' hg'⟩
    next _ _ n e hp =>
      have hf : (w.pc p).flushing = some n := by rw [hp]; rfl
      obtain ⟨hi, hg⟩ := h.setDirty hf true
      obtain ⟨hi', hg'⟩ := hi.reclaimFailed hf
      exact ⟨_, rfl, hi', hg _ hg'⟩
    next => exact stay

/-- A mounted sfs, and what can happen to its inodes. -/
def machine (P N : Type) [DecidableEq P] [DecidableEq N] :
    Machine (InodeCache P N) (CacheOp P N) where
  Init w := ∃ L inode, w = mount L inode
  Legal := Legal
  step := step

theorem inv_mount (L : Links (CacheNode N)) (inode : N → Inode) :
    (mount L inode : InodeCache P N).Inv := by
  have hinj : Function.Injective (CacheNode.hashList (N := N)) := fun a b h => by simpa using h
  refine ⟨⟨none, Mutex.init⟩, ⟨⟨[], ?_, by simp [mount]⟩, fun i hi => ⟨[], ?_, by simp [mount]⟩,
    by simp [mount], by simp [mount]⟩, ⟨by simp [mount, CachePc.loads], by simp [mount]⟩,
    ⟨by simp [mount], by simp [mount], by simp [mount, CachePc.reclaiming, CachePc.flushing],
      by simp [mount, CachePc.flushing], by simp [mount]⟩, fun n => by simp [mount]⟩
  · simp only [mount]
    exact circ_foldl_listInit hinj (List.range (2 ^ sfsHlistShift)) (listInit L .inodeList) _
      (by simp) (circ_listInit L _)
  · simp only [mount]
    exact circ_foldl_listInit_mem hinj (List.range (2 ^ sfsHlistShift)) (listInit L .inodeList)
      (List.mem_range.2 hi)

theorem reach_inv (h : (machine P N).Reach w) : w.Inv := by
  refine h.invariant (fun w h => ?_) fun w op hi hl => ?_
  · obtain ⟨L, inode, rfl⟩ := h
    exact inv_mount L inode
  · obtain ⟨w', hw', hi', -⟩ := hi.step hl
    exact ⟨w', hw', hi'⟩

/-! ## The cache -/

/-- The inode list and the hash table hold each live inode once, and there is one live inode for an
    inode number. -/
def CachedOnce (w : InodeCache P N) : Prop :=
  (∃ ns : List N, Circ w.links .inodeList (ns.map .inodeLink) ∧ ns.Nodup ∧
    ∀ n, n ∈ ns ↔ n ∈ w.live) ∧
  (∀ i < 2 ^ sfsHlistShift, ∃ ns : List N,
    Circ w.links (.hashList i) (ns.map .hashLink) ∧ ns.Nodup ∧
    ∀ n, n ∈ ns ↔ n ∈ w.live ∧ sinHashfn (w.inode n).ino = i) ∧
  ∀ m ∈ w.live, ∀ n ∈ w.live, (w.inode m).ino = (w.inode n).ino → m = n

/-- An inode has been unlinked and freed as often as it has been made, if it is not live, and once
    less if it is; and a live one is referenced, on its way out, or could not be written back. -/
def FreedOnce (w : InodeCache P N) : Prop :=
  (∀ n, w.made n = w.freed n + (if n ∈ w.live then 1 else 0) ∧ w.unlinked n = w.freed n) ∧
  ∀ n ∈ w.live, 0 < (w.inode n).refCount ∨
    (∃ p, (w.pc p).reclaiming = some n ∨ (w.pc p).flushing = some n) ∨ w.stuck n = true

/-- **The inode cache is unique**, in every state reached and for every step from it: there is one
    inode in memory for an inode number, a load returns it with one more reference, referenced
    inodes are not freed, and the others are unlinked and freed once. -/
theorem inode_cache_unique (h : (machine P N).Reach w) :
    w.CachedOnce ∧ w.FreedOnce ∧
    ∀ op, w.Legal op → ∃ w', w.step op = some w' ∧ LoadOk w w' ∧ KeepsReferenced w w' := by
  have hi := reach_inv h
  refine ⟨⟨?_, fun i hlt => ?_, hi.lists.inj⟩, ⟨hi.counts, fun n hn => ?_⟩, fun op hl => ?_⟩
  · obtain ⟨ns, c, hns⟩ := hi.lists.list
    exact ⟨ns, c, c.nodup_tail.of_map _, hns⟩
  · obtain ⟨ns, c, hns⟩ := hi.lists.hash i hlt
    exact ⟨ns, c, c.nodup_tail.of_map _, hns⟩
  · have hge := hi.refs.opens n hn
    by_cases hz : (w.inode n).refCount = 0
    · exact Or.inr (hi.refs.released n hn hz)
    · left; omega
  · obtain ⟨w', hw', -, hg⟩ := hi.step hl
    exact ⟨w', hw', hg.load, hg.kept⟩

instance (w : InodeCache P N) (op : CacheOp P N) : Decidable ((machine P N).Legal w op) :=
  inferInstanceAs (Decidable (w.Legal op))

/-- Process 0 loads inode 5 and releases it; while it waits for `fs_sem` in `sfs_reclaim`, process 2
    loads it again, and the reclaim backs off. -/
theorem inode_cache_unique_race : ∃ w, (machine ℕ ℕ).Reach w ∧
    w.pc 2 = .loaded 5 (.ok 70) ∧ w.pc 0 = .out ∧ w.live = {70, 71} ∧
    (w.inode 70).refCount = 1 ∧ (w.inode 70).reclaimCount = 1 ∧ w.CachedOnce ∧ w.FreedOnce := by
  have h : ((machine ℕ ℕ).run (mount ⟨id, id⟩ fun _ => ⟨0, 0, 0, 0, false, 0⟩)
      [.loadInode 0 5, .enter 0 true, .read 0 (.ok 1) (some 70), .loadInode 1 6, .enter 1 true,
        .loadInode 2 5, .refDec 0 70, .read 1 (.ok 1) (some 71), .wake 2, .enter 2 true, .wake 0,
        .enter 0 true]).bind (fun w =>
      if w.pc 2 = .loaded 5 (.ok 70) ∧ w.pc 0 = .out ∧ w.live = {70, 71} ∧
        (w.inode 70).refCount = 1 ∧ (w.inode 70).reclaimCount = 1 then some () else none) =
      some () := by decide +kernel
  obtain ⟨w, hw, h⟩ := Option.bind_eq_some_iff.1 h
  split_ifs at h with hc
  obtain ⟨h1, h2, h3, h4, h5⟩ := hc
  have hr : (machine ℕ ℕ).Reach w := Machine.Reach.run (.init ⟨_, _, rfl⟩) hw
  obtain ⟨g1, g2, -⟩ := inode_cache_unique hr
  exact ⟨w, hr, h1, h2, h3, h4, h5, g1, g2⟩

end InodeCache

end Ucore
