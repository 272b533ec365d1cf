/-
  No lock cycle in the file system.

  The order is `mm_sem`, `files_sem`, `vdev_list_sem`, `fs_sem`, the inodes' `sem`, `io_sem`,
  `disk0_sem`; nothing is taken under `bootfs_sem`.  There is one lemma for each function, with the
  lowest rank that the function takes: `inode_ref_dec`, which may end in `sfs_reclaim`, needs
  `fs_sem`, and is never called with an inode's `sem` held.

  * `process_ordered`: all system calls keep to the order;
  * `no_lock_cycle`: processes never wait for each other, and none takes a lock that it holds.
-/
import Ucore.Fs.Locks

namespace Ucore

open LockOrder LockOrder.Cmd LockOrder.Ordered

variable {M F N : Type} [DecidableEq M] [DecidableEq F] [DecidableEq N]

namespace FsLock

def rank : FsLock M F N → ℕ
  | mmSem _ => 0
  | filesSem _ => 1
  | vdevListSem => 2
  | fsSem => 3
  | sem _ => 4
  | ioSem => 5
  | disk0Sem => 6
  | bootfsSem => 6

omit [DecidableEq M] [DecidableEq F] [DecidableEq N] in
theorem rank_lt (l : FsLock M F N) : l.rank < 7 := by
  cases l <;> simp [rank]

end FsLock

namespace Locks

/-- The function takes locks of rank `r` or more only, in order, and releases them. -/
abbrev Takes (r : ℕ) (c : Prog M F N) : Prop := Ordered FsLock.rank r c

/-! ## The disk -/

theorem takes_disk0Io : Takes 6 (disk0Io : Prog M F N) := .opt (.locked le_rfl .skip)

theorem takes_sfsRwblockNolock : Takes 6 (sfsRwblockNolock : Prog M F N) := takes_disk0Io

theorem takes_sfsRwblock : Takes 5 (sfsRwblock : Prog M F N) :=
  .locked le_rfl (.loop takes_sfsRwblockNolock)

theorem takes_sfsRbuf : Takes 5 (sfsRbuf : Prog M F N) := .locked le_rfl takes_sfsRwblockNolock

theorem takes_sfsWbuf : Takes 5 (sfsWbuf : Prog M F N) :=
  .locked le_rfl (.both takes_sfsRwblockNolock (.opt takes_sfsRwblockNolock))

theorem takes_sfsSyncSuper : Takes 5 (sfsSyncSuper : Prog M F N) :=
  .locked le_rfl takes_sfsRwblockNolock

theorem takes_sfsClearBlock : Takes 5 (sfsClearBlock : Prog M F N) :=
  .locked le_rfl (.loop takes_sfsRwblockNolock)

/-! ## Blocks and entries of a locked inode -/

theorem takes_sfsBlockAlloc : Takes 5 (sfsBlockAlloc : Prog M F N) := .opt takes_sfsClearBlock

theorem takes_sfsBmapGetSubNolock : Takes 5 (sfsBmapGetSubNolock : Prog M F N) :=
  .both (.choice takes_sfsRbuf (.opt takes_sfsBlockAlloc))
    (.opt (.both takes_sfsBlockAlloc (.opt takes_sfsWbuf)))

theorem takes_sfsBmapLoadNolock : Takes 5 (sfsBmapLoadNolock : Prog M F N) :=
  .choice (.opt takes_sfsBlockAlloc) takes_sfsBmapGetSubNolock

theorem takes_sfsBmapTruncateNolock : Takes 5 (sfsBmapTruncateNolock : Prog M F N) :=
  .opt (.both takes_sfsRbuf (.opt takes_sfsWbuf))

theorem takes_direntLoop : Takes 5 (.loop sfsDirentReadNolock : Prog M F N) :=
  .loop (.both takes_sfsBmapLoadNolock (.opt takes_sfsRbuf))

theorem takes_sfsBufOp : ∀ write, Takes 5 (sfsBufOp write : Prog M F N)
  | true => takes_sfsWbuf
  | false => takes_sfsRbuf

theorem takes_sfsBlockOp : ∀ write, Takes 5 (sfsBlockOp write : Prog M F N)
  | true | false => takes_sfsRwblock

theorem takes_sfsIoNolock (write : Bool) : Takes 5 (sfsIoNolock write : Prog M F N) := by
  have hbuf : Takes 5 (block [sfsBmapLoadNolock, opt (sfsBufOp write)] : Prog M F N) :=
    .both takes_sfsBmapLoadNolock (.opt (takes_sfsBufOp write))
  have hblock : Takes 5 (block [sfsBmapLoadNolock, opt (sfsBlockOp write)] : Prog M F N) :=
    .both takes_sfsBmapLoadNolock (.opt (takes_sfsBlockOp write))
  exact .cons (.opt hbuf) (.both (.loop hblock) (.opt hbuf))

/-! ## Inodes -/

section
variable (node : N)

theorem takes_sfsIo (write : Bool) : Takes 4 (sfsIo node write : Prog M F N) :=
  .locked le_rfl (takes_sfsIoNolock write)

theorem takes_sfsFsync : Takes 4 (sfsFsync node : Prog M F N) :=
  .opt (.locked le_rfl (.opt takes_sfsWbuf))

theorem takes_sfsTruncfile : Takes 4 (sfsTruncfile node : Prog M F N) :=
  .opt (.locked le_rfl
    (.choice (.loop takes_sfsBmapLoadNolock) (.loop takes_sfsBmapTruncateNolock)))

theorem takes_sfsGetdirentry : Takes 4 (sfsGetdirentry node : Prog M F N) :=
  .opt (.locked le_rfl takes_direntLoop)

theorem takes_sfsLoadInode : Takes 3 (sfsLoadInode : Prog M F N) :=
  .locked le_rfl ((opt takes_sfsRbuf).mono (by simp [FsLock.rank]))

/-- The inode's `sem` is released before `sfs_load_inode` takes `fs_sem`. -/
theorem takes_sfsLookupOnce : Takes 3 (sfsLookupOnce node : Prog M F N) :=
  .both (.locked (by simp [FsLock.rank]) takes_direntLoop) (.opt takes_sfsLoadInode)

/-- **Reclaim** takes `fs_sem`, then the inode's `sem`. -/
theorem takes_sfsReclaim : Takes 3 (sfsReclaim node : Prog M F N) :=
  .locked le_rfl (.opt (.both (.opt (takes_sfsTruncfile node)) (.opt (takes_sfsFsync node))))

theorem takes_inodeRefDec : Takes 3 (inodeRefDec node : Prog M F N) := .opt (takes_sfsReclaim node)

theorem takes_inodeOpenDec : Takes 4 (inodeOpenDec node : Prog M F N) := .opt (takes_sfsFsync node)

theorem takes_sfsNamefile : Takes 3 (sfsNamefile : Prog M F N) := by
  refine .opt (.both (.loop (.pick fun node => .both (takes_sfsLookupOnce node) (.opt (.both
    (takes_inodeRefDec node) (.pick fun parent => .choice (takes_inodeRefDec node) ?_)))))
    (.pick fun node => .opt (takes_inodeRefDec node)))
  exact .locked (by simp [FsLock.rank]) takes_direntLoop

theorem takes_sfsLookup : Takes 3 (sfsLookup node : Prog M F N) :=
  .choice (takes_inodeRefDec node) (.both (takes_sfsLookupOnce node) (takes_inodeRefDec node))

theorem takes_vfsClose : Takes 3 (vfsClose node : Prog M F N) :=
  .both ((takes_inodeOpenDec node).mono (by decide)) (takes_inodeRefDec node)

theorem takes_vopRead : Takes 4 (vopRead node : Prog M F N) :=
  .choice (takes_sfsIo node false) (takes_disk0Io.mono (by decide))

theorem takes_vopWrite : Takes 4 (vopWrite node : Prog M F N) :=
  .choice (takes_sfsIo node true) (takes_disk0Io.mono (by decide))

theorem takes_vopTryseek : Takes 4 (vopTryseek node : Prog M F N) :=
  .opt (.opt (takes_sfsTruncfile node))

end

/-- **Sync** takes `fs_sem`, then the inodes' `sem`s, one after the other. -/
theorem takes_sfsSync : Takes 3 (sfsSync : Prog M F N) :=
  .both (.locked le_rfl (.loop (.pick fun node => takes_sfsFsync node)))
    (.opt (.both (takes_sfsSyncSuper.mono (by decide))
      (.opt (takes_sfsRwblock.mono (by decide)))))

/-! ## The virtual file system -/

/-- An inode released while no inode is locked. -/
theorem takes_release : Takes 3 (.pick fun node : N => inodeRefDec node : Prog M F N) :=
  .pick takes_inodeRefDec

theorem takes_changeBootfs : Takes 3 (changeBootfs : Prog M F N) :=
  .both (.locked (by simp [FsLock.rank]) .skip) (.opt takes_release)

theorem takes_vfsCleanup : Takes 2 (vfsCleanup : Prog M F N) :=
  .opt (.locked le_rfl (.loop (.opt (.loop takes_sfsSync))))

theorem takes_vfsGetRoot : Takes 2 (vfsGetRoot : Prog M F N) :=
  .opt (.locked le_rfl (.opt takes_sfsLoadInode))

theorem takes_vfsDoAdd : Takes 2 (vfsDoAdd : Prog M F N) := .opt (.locked le_rfl .skip)

theorem takes_vfsMount : Takes 2 (vfsMount : Prog M F N) :=
  .locked le_rfl (.opt (.loop (takes_disk0Io.mono (by simp [FsLock.rank]))))

theorem takes_vfsUnmount : Takes 2 (vfsUnmount : Prog M F N) :=
  .locked le_rfl (.opt takes_sfsSync)

theorem takes_vfsUnmountAll : Takes 2 (vfsUnmountAll : Prog M F N) :=
  .opt (.locked le_rfl (.loop (.opt takes_sfsSync)))

theorem takes_getDevice : Takes 2 (getDevice : Prog M F N) := by
  refine .choice .skip (.choice takes_vfsGetRoot (.choice ?_ ?_))
  · exact .opt (.locked (by simp [FsLock.rank]) .skip)
  · exact .opt (.both (takes_sfsLoadInode.mono (by decide)) (takes_release.mono (by decide)))

theorem takes_vfsLookup : Takes 2 (vfsLookup : Prog M F N) :=
  .both takes_getDevice (.opt (.pick fun node => .both
    ((opt (takes_sfsLookup node)).mono (by decide)) ((takes_inodeRefDec node).mono (by decide))))

theorem takes_vfsSetCurdir (filesp : F) : Takes 1 (vfsSetCurdir filesp : Prog M F N) :=
  .locked le_rfl ((opt takes_release).mono (by simp [FsLock.rank]))

theorem takes_vfsChdir (filesp : F) : Takes 1 (vfsChdir filesp : Prog M F N) :=
  .both (takes_vfsLookup.mono (by decide))
    (.opt (.both (takes_vfsSetCurdir filesp) (takes_release.mono (by decide))))

theorem takes_vfsSetBootfs (filesp : F) : Takes 1 (vfsSetBootfs filesp : Prog M F N) :=
  .both (.opt (takes_vfsChdir filesp)) (.opt (takes_changeBootfs.mono (by decide)))

theorem takes_vfsGetcwd : Takes 3 (vfsGetcwd : Prog M F N) :=
  .opt (.both (.opt takes_sfsNamefile) takes_release)

theorem takes_vfsOpen : Takes 2 (vfsOpen : Prog M F N) := by
  refine .cons takes_vfsLookup (.both (.opt takes_getDevice) (.opt (.pick fun node => ?_)))
  refine Ordered.mono (.choice (takes_inodeRefDec node) (.opt (.both ?_ (.opt ?_))))
    (by decide : 2 ≤ 3)
  · exact (takes_sfsTruncfile node).mono (by decide)
  · exact takes_vfsClose node

/-! ## Files -/

theorem takes_fdArrayFree : Takes 3 (fdArrayFree : Prog M F N) := .opt (.pick takes_vfsClose)

theorem takes_fileOpen : Takes 2 (fileOpen : Prog M F N) :=
  .opt (.both takes_vfsOpen (Ordered.mono (.choice takes_fdArrayFree
    (.opt (.both (.pick takes_vfsClose) takes_fdArrayFree))) (by decide : 2 ≤ 3)))

theorem takes_fileOp {op : N → Prog M F N} (h : ∀ node, Takes 4 (op node)) :
    Takes 3 (fileOp op) :=
  .opt (.both (.opt (.pick fun node => (h node).mono (by decide))) (.opt takes_fdArrayFree))

theorem takes_filesCloseall : Takes 3 (filesCloseall : Prog M F N) :=
  .loop (.opt (.opt takes_fdArrayFree))

theorem takes_filesDestroy : Takes 3 (filesDestroy : Prog M F N) :=
  .both (.opt takes_release) takes_filesCloseall

/-! ## System calls -/

/-- `lock_mm` around something that takes other locks only. -/
theorem takes_lockMm {c : Prog M F N} (mm : Option M) (h : Takes 1 c) :
    Takes 0 (block [lockMm mm, c, unlockMm mm]) := by
  cases mm with
  | none => exact .cons .skip (.both (h.mono (by decide)) .skip)
  | some mm => exact .locked le_rfl h

section
variable (mm : Option M) (filesp : F)

theorem takes_copyUser : Takes 0 (copyUser mm : Prog M F N) := takes_lockMm mm .skip

theorem takes_sysfileOpen : Takes 0 (sysfileOpen mm : Prog M F N) :=
  .both (.opt (takes_copyUser mm)) (.opt (takes_fileOpen.mono (by decide)))

theorem takes_sysfileRead : Takes 0 (sysfileRead mm : Prog M F N) :=
  .opt (.loop (.both ((takes_fileOp takes_vopRead).mono (by decide)) (.opt (takes_copyUser mm))))

theorem takes_sysfileWrite : Takes 0 (sysfileWrite mm : Prog M F N) :=
  .opt (.loop (.both (takes_copyUser mm) (.opt ((takes_fileOp takes_vopWrite).mono (by decide)))))

theorem takes_sysfileSeek : Takes 0 (sysfileSeek : Prog M F N) :=
  (takes_fileOp takes_vopTryseek).mono (by decide)

theorem takes_sysfileFstat : Takes 0 (sysfileFstat mm : Prog M F N) :=
  .both ((takes_fileOp fun _ => .skip).mono (by decide)) (.opt (takes_copyUser mm))

theorem takes_sysfileChdir : Takes 0 (sysfileChdir mm filesp : Prog M F N) :=
  .both (.opt (takes_copyUser mm)) (.opt ((takes_vfsChdir filesp).mono (by decide)))

/-- **`getcwd`** enters the file system with `mm_sem` held. -/
theorem takes_sysfileGetcwd : Takes 0 (sysfileGetcwd mm : Prog M F N) :=
  .opt (takes_lockMm mm ((opt takes_vfsGetcwd).mono (by decide)))

theorem takes_sysfileGetdirentry : Takes 0 (sysfileGetdirentry mm : Prog M F N) :=
  .opt (.both (takes_copyUser mm) (.opt (.both
    ((takes_fileOp takes_sfsGetdirentry).mono (by decide)) (.opt (takes_copyUser mm)))))

theorem takes_putFiles : Takes 0 (putFiles : Prog M F N) :=
  .opt (takes_filesDestroy.mono (by decide))

theorem takes_doFork : Takes 0 (doFork mm : Prog M F N) :=
  .opt (.both (.opt (takes_lockMm mm .skip)) (.opt takes_putFiles))

theorem takes_doExecve : Takes 0 (doExecve mm : Prog M F N) := by
  refine .opt (.both (takes_copyUser mm) (.opt (.both (takes_filesCloseall.mono (by decide))
    (.both (takes_sysfileOpen mm) (.both (.opt (.loop (.both takes_sysfileSeek ?_))) ?_)))))
  · exact .opt (takes_sysfileRead none)
  · exact .opt (.opt takes_putFiles)

theorem takes_fsCall : ∀ c, Takes 0 (fsCall mm filesp c : Prog M F N)
  | .open => takes_sysfileOpen mm
  | .close => .opt (.opt (takes_fdArrayFree.mono (by decide)))
  | .read => takes_sysfileRead mm
  | .write => takes_sysfileWrite mm
  | .seek => takes_sysfileSeek
  | .fstat => takes_sysfileFstat mm
  | .fsync => (takes_fileOp takes_sfsFsync).mono (by decide)
  | .chdir => takes_sysfileChdir mm filesp
  | .getcwd => takes_sysfileGetcwd mm
  | .getdirentry => takes_sysfileGetdirentry mm
  | .dup => .skip
  | .fork => takes_doFork mm
  | .exec => takes_doExecve mm
  | .exit => .opt takes_putFiles
  | .sync => takes_sfsSync.mono (by decide)
  | .cleanup => takes_vfsCleanup.mono (by decide)
  | .addDev => takes_vfsDoAdd.mono (by decide)
  | .mount => takes_vfsMount.mono (by decide)
  | .unmount => takes_vfsUnmount.mono (by decide)
  | .unmountAll => takes_vfsUnmountAll.mono (by decide)
  | .setBootfs => (takes_vfsSetBootfs filesp).mono (by decide)

end

/-- **All system calls** keep to the order. -/
theorem process_ordered : Takes 0 (process : Prog M F N) :=
  .loop (.pick fun mm => .pick fun filesp => .pick fun c => takes_fsCall mm filesp c)

/-! ## Runs -/

variable {P : Type} [DecidableEq P]

/-- The states that the system calls of the processes `P` lead to. -/
abbrev Reach (s : Sys P (FsLock M F N)) : Prop := Sys.Reach (fun _ => process) s

/-- **No lock cycle.** In no state reached is there a set of processes each blocked in the `down`
    of a lock that a process of the set holds, and no process is about to take a lock that it
    holds. -/
theorem no_lock_cycle {s : Sys P (FsLock M F N)} (h : Reach s) :
    (∀ S : Set P, S.Nonempty → ¬ ∀ p ∈ S, ∃ l, s.Blocked p l ∧ ∃ q ∈ S, s.Holds q l) ∧
    ∀ p l k H, s.proc p = ⟨.down l :: k, H, none⟩ → ¬ s.Holds p l :=
  ⟨fun _ hS => h.no_cycle (fun _ => process_ordered) FsLock.rank_lt hS,
    fun _ _ _ _ hp => h.no_self (fun _ => process_ordered) hp⟩

omit [DecidableEq M] [DecidableEq F] [DecidableEq N] in
/-- A call of `vfs_add_dev` gets to its `down`. -/
theorem runs_vfsDoAdd (mm : Option M) (filesp : F) :
    Relation.ReflTransGen Next [(process : Prog M F N)]
      [lockVdevList, block [.skip, unlockVdevList], process] := by
  refine .head (.loopEnter _ _) (.head (.pick _ mm _) (.head (.pick _ filesp _)
    (.head (.pick _ FsCall.addDev _) (.head (.pick _ false _) (.single ?_)))))
  exact .seq lockVdevList (block [.skip, unlockVdevList]) _

/-- Two processes add a device, and one waits for the other. -/
theorem no_lock_cycle_two_processes : ∃ s : Sys Bool (FsLock ℕ ℕ ℕ), Reach s ∧
    s.Blocked true .vdevListSem ∧ s.Holds false .vdevListSem ∧
    ¬ ∀ p, ∃ l, s.Blocked p l ∧ ∃ q, s.Holds q l := by
  have h₀ : Reach (Sys.start fun _ : Bool => (process : Prog ℕ ℕ ℕ)) := .init
  have h₁ := h₀.runs (p := false) rfl (runs_vfsDoAdd none 0)
  have h₂ := h₁.step (.take (p := false) (l := .vdevListSem) rfl (by decide))
  have h₃ := h₂.runs (p := true) rfl (runs_vfsDoAdd none 0)
  have h₄ := h₃.step (.block (p := true) (l := .vdevListSem) rfl (by decide))
  refine ⟨_, h₄, ?_, ?_, ?_⟩
  · show true ∈ [true]
    simp
  · left
    show FsLock.vdevListSem ∈ [FsLock.vdevListSem]
    simp
  · simpa using (no_lock_cycle h₄).1 Set.univ Set.univ_nonempty

end Locks

end Ucore
