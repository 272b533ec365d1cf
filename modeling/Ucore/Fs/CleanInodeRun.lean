/-
  A mounted sfs, call after call: an inode in memory that is not dirty is the one on the disk.

  * `OnDisk`: every inode in memory that is not dirty is on the disk;
  * `clean_on_disk`: so it is after any calls that mark the inode where they break off behind a
    block that they have added;
  * `clean_not_on_disk`: a truncation that runs out of blocks, and does not mark it, leaves an inode
    that is not dirty, and has one block more than on the disk.
-/
import Ucore.Fs.CleanInode

namespace Ucore

/-- Every inode in memory that is not dirty is on the disk. -/
def OnDisk (s : Sfs) : Prop :=
  ∀ i, s.cached i = true → (s.sin i).dirty = false → DiskInode.ofBytes (s.disk i) = s.din i

/-- The call sets the size of the file, or `dirty` for a block that it adds, or adds none. -/
def FileOp.Marks (dev : Device) (s : Sfs) : FileOp → Prop
  | .io i buf offset alen write => MarksIo dev i buf offset alen write s
  | .truncfile i len => MarksTrunc dev i len s
  | .tryseek i pos => pos < sfsMaxFileSize → (s.din i).size < pos → MarksTrunc dev i pos s
  | _ => True

/-- The calls on files, each file having its blocks at first. -/
def openMachine (dev : Device) (I : Finset ℕ) : Machine Sfs FileOp where
  Init s := Mounted I s ∧ Whole I s
  Legal := FileOp.Regular I
  step := FileOp.step dev

/-- The calls that mark the inodes. -/
def markingMachine (dev : Device) (I : Finset ℕ) : Machine Sfs FileOp where
  Init s := Mounted I s ∧ Whole I s
  Legal s op := op.Regular I s ∧ op.Marks dev s
  step := FileOp.step dev

instance (dev : Device) (i : ℕ) (buf : Bytes) (offset : ℤ) (alen : ℕ) (write : Bool) (s : Sfs) :
    Decidable (MarksIo dev i buf offset alen write s) := by
  unfold MarksIo
  split <;> infer_instance

instance (dev : Device) (i : ℕ) (len : ℤ) (s : Sfs) : Decidable (MarksTrunc dev i len s) := by
  unfold MarksTrunc
  split <;> infer_instance

instance (dev : Device) (s : Sfs) : DecidablePred (FileOp.Marks dev s)
  | .io i buf offset alen write => inferInstanceAs
    (Decidable (MarksIo dev i buf offset alen write s))
  | .truncfile i len => inferInstanceAs (Decidable (MarksTrunc dev i len s))
  | .tryseek i pos => inferInstanceAs
      (Decidable (pos < sfsMaxFileSize → (s.din i).size < pos → MarksTrunc dev i pos s))
  | .loadInode _ | .bmapLoad _ _ | .bmapTruncate _ | .reclaim _ | .hold _ | .release _
  | .fsync _ => inferInstanceAs (Decidable True)

instance (dev : Device) (I : Finset ℕ) (s : Sfs) (op : FileOp) :
    Decidable ((openMachine dev I).Legal s op) := inferInstanceAs (Decidable (op.Regular I s))

instance (dev : Device) (I : Finset ℕ) (s : Sfs) (op : FileOp) :
    Decidable ((markingMachine dev I).Legal s op) :=
  inferInstanceAs (Decidable (op.Regular I s ∧ op.Marks dev s))

section
variable {dev : Device} {I : Finset ℕ} {E : Set ℕ} {s t : Sfs} {i j : ℕ}

/-! ## The invariant -/

/-- The size, the type and the number of blocks are on the disk, with the rest of the inode. -/
theorem Settled.onDisk (h : Settled ∅ s) (ha : Acct I E s) : OnDisk s := by
  intro i hc hd
  obtain ⟨hdir, hind, -⟩ := ha.clean i hc hd
  obtain ⟨hsz, hty, hb⟩ := h.clean i hc hd
  exact DiskInode.ext hsz hty (ha.links i hc).2 hb hdir hind

theorem Settled.touched (h : Settled ∅ s) (hI : ∀ j, s.cached j = true → j ∈ I)
    (ht : Touched I i s t) : Settled ∅ t := by
  refine ⟨fun j hj => absurd hj (Finset.notMem_empty j), fun j hj => ?_, fun j hj hd => ?_⟩
  · rw [ht.cached] at hj
    by_cases hji : j = i
    · subst hji
      exact ⟨ht.size, by rw [ht.type]; exact (h.words j hj).2.1, ht.blocks⟩
    · rw [Sfs.din, ht.sin j hji]
      exact h.words j hj
  · rw [ht.cached] at hj
    have hs : t.sin j = s.sin j := by
      by_cases hji : j = i
      · subst hji
        exact ht.clean hd
      · exact ht.sin j hji
    rw [hs] at hd
    rw [ht.disk j (hI j hj), Sfs.din, hs]
    exact h.clean j hj hd

theorem tryseek_touched {pos : ℤ} (h : Acct I E s) (hw : Whole I s) (hc : s.cached i = true)
    (hs : (s.din i).size < 2 ^ 32) (hb : (s.din i).blocks < 2 ^ 32)
    (hm : pos < sfsMaxFileSize → (s.din i).size < pos → MarksTrunc dev i pos s)
    {r : Except Errno Unit} (hr : tryseek dev i pos s = some (r, t)) : Touched I i s t := by
  unfold tryseek at hr
  split at hr
  · obtain ⟨-, rfl⟩ := Code.throw_eq_some.1 hr
    exact .refl hs hb
  · rename_i hp
    simp only [not_or, not_le, not_lt] at hp
    rw [Code.get_bind_eq_some] at hr
    split at hr
    · rename_i hlt
      exact truncfile_touched h hw hc hs hb (hm hp.2 hlt) hr
    · obtain ⟨-, rfl⟩ := Code.pure_eq_some.1 hr
      exact .refl hs hb

/-! ## Runs -/

/-- **One call.** -/
theorem step_onDisk (ha : Acct I E s) (hw : Whole I s) (h : Settled ∅ s) {op : FileOp}
    (hl : (markingMachine dev I).Legal s op) (hs : op.step dev s = some t) : Settled ∅ t := by
  obtain ⟨hr, hm⟩ := hl
  cases op with
  | loadInode i =>
    obtain ⟨r, hs⟩ := map_snd_eq_some hs
    obtain ⟨hc, rfl⟩ | ⟨hc, -, rfl⟩ | ⟨n, rfl⟩ := loadInode_cases ha.geo hs
    · exact h.setSin rfl rfl
    · exact (h.wait 3).loaded hc
    · exact h.wait n
  | reclaim i =>
    obtain ⟨r, hs⟩ := map_snd_eq_some hs
    have h' := h.setSin (i := i)
      (f := fun sin => { sin with reclaimCount := sin.reclaimCount - 1 }) rfl rfl
    obtain rfl | ⟨v, r', hv, rfl | ⟨hd, rfl⟩⟩ := reclaim_cases ha hr hs
    · exact h'
    · exact h'.fsync hr hv
    · have hcv : v.cached i = true := by
        obtain ⟨-, rfl⟩ | ⟨n, rfl, -⟩ := fsync_cases hv
        · exact hr
        · exact hr
      exact (h'.fsync hr hv).drop hcv hd
  | hold i =>
    cases hs
    exact h.setSin rfl rfl
  | release i =>
    cases hs
    exact h.setSin rfl rfl
  | bmapLoad i k => cases hr
  | bmapTruncate i => cases hr
  | io i buf offset alen write =>
    obtain ⟨r, hs⟩ := map_snd_eq_some hs
    obtain ⟨hsz, -, hb⟩ := h.words i hr.1
    exact h.touched ha.cached (ioNolock_touched ha hw hr.1 hsz hb hm hs)
  | truncfile i len =>
    obtain ⟨r, hs⟩ := map_snd_eq_some hs
    obtain ⟨hsz, -, hb⟩ := h.words i hr.1
    exact h.touched ha.cached (truncfile_touched ha hw hr.1 hsz hb hm hs)
  | tryseek i pos =>
    obtain ⟨r, hs⟩ := map_snd_eq_some hs
    obtain ⟨hsz, -, hb⟩ := h.words i hr.1
    exact h.touched ha.cached (tryseek_touched ha hw hr.1 hsz hb hm hs)
  | fsync i =>
    obtain ⟨r, hs⟩ := map_snd_eq_some hs
    exact h.fsync hr hs

/-- **An inode that is not dirty is on the disk** after any calls that mark the inodes. -/
theorem clean_on_disk (h : (markingMachine dev I).Reach s) : OnDisk s := by
  have hinv : ∃ E, Acct I E s ∧ Whole I s ∧ Settled ∅ s := by
    refine h.preserved (I := fun s => ∃ E, Acct I E s ∧ Whole I s ∧ Settled ∅ s)
      (fun s hs => ⟨∅, hs.1.acct, hs.2, ⟨fun j hj => absurd hj (Finset.notMem_empty j),
        fun i hi => ?_, fun i hi => ?_⟩⟩) fun s op t ⟨E, ha, hw, hi⟩ hl hs => ?_
    · rw [hs.1.cached i] at hi
      cases hi
    · rw [hs.1.cached i] at hi
      cases hi
    · obtain ⟨⟨E', -, -, ha'⟩, hw'⟩ := step_kept ha hl.1.legal hs
      exact ⟨E', ha', hw' hw, step_onDisk ha hw hi hl hs⟩
  obtain ⟨E, ha, -, hs⟩ := hinv
  exact hs.onDisk ha

/-- A file is made one of thirteen blocks, and written back. -/
theorem clean_on_disk_fsync : ∃ s, (markingMachine soundDevice {1, 3}).Reach s ∧
    (s.cached 3 = true ∧ (s.sin 3).dirty = false ∧ (s.din 3).blocks = 13) ∧ OnDisk s := by
  have hrun : (((markingMachine soundDevice {1, 3}).run (spareImage 15)
      [.loadInode 3, .truncfile 3 53248, .fsync 3]).bind fun s =>
        if s.cached 3 = true ∧ (s.sin 3).dirty = false ∧ (s.din 3).blocks = 13
          then some () else none) = some () := by decide +kernel
  obtain ⟨s, hs, hif⟩ := Option.bind_eq_some_iff.1 hrun
  split at hif
  · rename_i hc
    have h0 : (markingMachine soundDevice {1, 3}).Init (spareImage 15) :=
      ⟨mounted_spareImage (by decide), whole_spareImage⟩
    have hr := (Machine.Reach.init h0).run hs
    exact ⟨s, hr, hc, clean_on_disk hr⟩
  · cases hif

/-- The same file is to have fifteen blocks when one is free: the fourteenth is counted, and the
    inode is not dirty. -/
theorem clean_not_on_disk : ∃ s, (openMachine soundDevice {1, 3}).Reach s ∧ ¬OnDisk s := by
  have hrun : (((openMachine soundDevice {1, 3}).run (spareImage 15)
      [.loadInode 3, .truncfile 3 53248, .fsync 3, .truncfile 3 61440]).bind fun s =>
        if s.cached 3 = true ∧ (s.sin 3).dirty = false ∧ (s.din 3).blocks = 14 ∧
          (DiskInode.ofBytes (s.disk 3)).blocks = 13 then some () else none) = some () := by
    decide +kernel
  obtain ⟨s, hs, hif⟩ := Option.bind_eq_some_iff.1 hrun
  split at hif
  · rename_i hc
    obtain ⟨hcd, hd, hb, hb'⟩ := hc
    have h0 : (openMachine soundDevice {1, 3}).Init (spareImage 15) :=
      ⟨mounted_spareImage (by decide), whole_spareImage⟩
    refine ⟨s, (Machine.Reach.init h0).run hs, fun h => ?_⟩
    have := congrArg DiskInode.blocks (h 3 hcd hd)
    omega
  · cases hif

end

end Ucore
