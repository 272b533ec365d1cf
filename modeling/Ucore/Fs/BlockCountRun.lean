/-
  A mounted sfs on which files are read, written, sought and truncated: the number of blocks of a
  file is that of its size.

  * `Settled`: the invariant; an inode that is not dirty is on the disk with its size and its
    blocks;
  * `blocks_of_size`: after any calls that do not break off behind a block that they have added or
    freed, the number of blocks is right, and the assertion of `sfs_truncfile` holds;
  * `blocks_left_over`: a seek, or a write, that does break off there leaves blocks too many.
-/
import Ucore.Fs.BlockCount
import Ucore.Fs.FileRun

namespace Ucore

/-- Every regular file has the blocks of its size. -/
def Counted (I : Finset ℕ) (s : Sfs) : Prop :=
  ∀ i ∈ I, (s.dinOf i).type = sfsTypeFile →
    (s.dinOf i).blocks = ((s.dinOf i).size + 4095) / 4096

/-- A call on an inode in memory, or one that reads an inode; to read, write, seek or truncate, it
    is that of a regular file. -/
def FileOp.Regular (I : Finset ℕ) (s : Sfs) : FileOp → Prop
  | .loadInode i => i ∈ I
  | .bmapLoad _ _ | .bmapTruncate _ => False
  | .io i _ _ _ _ | .truncfile i _ | .tryseek i _ =>
    s.cached i = true ∧ (s.din i).type = sfsTypeFile
  | .reclaim i | .hold i | .release i | .fsync i => s.cached i = true

/-- The call does not break off behind a block that it has added or freed. -/
def FileOp.Unbroken (dev : Device) (s : Sfs) : FileOp → Prop
  | .io i buf offset alen write => write = true → FillsIo dev i buf offset alen s
  | .truncfile i len => TruncsWhole dev i len s
  | .tryseek i pos => pos < sfsMaxFileSize → (s.din i).size < pos → TruncsWhole dev i pos s
  | _ => True

/-- The calls on files. -/
def countMachine (dev : Device) (I : Finset ℕ) : Machine Sfs FileOp where
  Init s := Mounted I s ∧ Counted I s
  Legal := FileOp.Regular I
  step := FileOp.step dev

/-- The calls that do not break off. -/
def unbrokenMachine (dev : Device) (I : Finset ℕ) : Machine Sfs FileOp where
  Init s := Mounted I s ∧ Counted I s
  Legal s op := op.Regular I s ∧ op.Unbroken dev s
  step := FileOp.step dev

instance (I : Finset ℕ) (s : Sfs) : DecidablePred (FileOp.Regular I s)
  | .loadInode i => inferInstanceAs (Decidable (i ∈ I))
  | .bmapLoad _ _ | .bmapTruncate _ => inferInstanceAs (Decidable False)
  | .io i _ _ _ _ | .truncfile i _ | .tryseek i _ =>
    inferInstanceAs (Decidable (s.cached i = true ∧ (s.din i).type = sfsTypeFile))
  | .reclaim i | .hold i | .release i | .fsync i => inferInstanceAs (Decidable (s.cached i = true))

instance (dev : Device) (i : ℕ) (buf : Bytes) (offset : ℤ) (alen : ℕ) (s : Sfs) :
    Decidable (FillsIo dev i buf offset alen s) := by
  unfold FillsIo
  infer_instance

instance (dev : Device) (i : ℕ) (len : ℤ) (s : Sfs) : Decidable (TruncsWhole dev i len s) := by
  unfold TruncsWhole
  infer_instance

instance (dev : Device) (s : Sfs) : DecidablePred (FileOp.Unbroken dev s)
  | .io i buf offset alen write =>
    inferInstanceAs (Decidable (write = true → FillsIo dev i buf offset alen s))
  | .truncfile i len => inferInstanceAs (Decidable (TruncsWhole dev i len s))
  | .tryseek i pos => inferInstanceAs
      (Decidable (pos < sfsMaxFileSize → (s.din i).size < pos → TruncsWhole dev i pos s))
  | .loadInode _ | .bmapLoad _ _ | .bmapTruncate _ | .reclaim _ | .hold _ | .release _
  | .fsync _ => inferInstanceAs (Decidable True)

instance (dev : Device) (I : Finset ℕ) (s : Sfs) (op : FileOp) :
    Decidable ((countMachine dev I).Legal s op) :=
  inferInstanceAs (Decidable (op.Regular I s))

instance (dev : Device) (I : Finset ℕ) (s : Sfs) (op : FileOp) :
    Decidable ((unbrokenMachine dev I).Legal s op) :=
  inferInstanceAs (Decidable (op.Regular I s ∧ op.Unbroken dev s))

variable {dev : Device} {I : Finset ℕ} {E : Set ℕ} {s t : Sfs} {i j : ℕ}

theorem FileOp.Regular.legal {op : FileOp} (h : op.Regular I s) : op.Legal I s := by
  cases op with
  | io | truncfile | tryseek => exact h.1
  | bmapLoad | bmapTruncate => cases h
  | _ => exact h

/-! ## The invariant -/

/-- The files have the blocks of their sizes; what is not dirty is on the disk, and what is dirty
    fits into the fields of the disk. -/
structure Settled (I : Finset ℕ) (s : Sfs) : Prop where
  counted : Counted I s
  words : ∀ i, s.cached i = true →
    (s.din i).size < 2 ^ 32 ∧ (s.din i).type < 2 ^ 16 ∧ (s.din i).blocks < 2 ^ 32
  clean : ∀ i, s.cached i = true → (s.sin i).dirty = false →
    (DiskInode.ofBytes (s.disk i)).size = (s.din i).size ∧
      (DiskInode.ofBytes (s.disk i)).type = (s.din i).type ∧
      (DiskInode.ofBytes (s.disk i)).blocks = (s.din i).blocks

theorem Mounted.settled (h : Mounted I s) (hc : Counted I s) : Settled I s where
  counted := hc
  words i hi := by rw [h.cached i] at hi; cases hi
  clean i hi := by rw [h.cached i] at hi; cases hi

theorem Beside.dinOf (h : Beside I i s t) (hj : j ∈ I) (hji : j ≠ i) : t.dinOf j = s.dinOf j := by
  rw [Sfs.dinOf, Sfs.dinOf, h.cached, h.disk j hj, Sfs.din, h.sin j hji]
  rfl

namespace Settled

theorem wait (h : Settled I s) (n : ℕ) : Settled I (s.wait n) := ⟨h.counted, h.words, h.clean⟩

/-- The counts of an inode are written. -/
theorem setSin (h : Settled I s) {f : SfsInode → SfsInode}
    (hd : (f (s.sin i)).din = s.din i) (hn : (f (s.sin i)).dirty = (s.sin i).dirty) :
    Settled I (s.setSin i f) := by
  have hdin : ∀ j, (s.setSin i f).din j = s.din j := fun j => by
    rw [Sfs.din_setSin]
    split
    · rename_i hj
      rw [hd, hj]
    · rfl
  have hof : ∀ j, (s.setSin i f).dinOf j = s.dinOf j := fun j => by
    rw [Sfs.dinOf, hdin]
    rfl
  refine ⟨fun j hj ht => ?_, fun j hj => ?_, fun j hj hdj => ?_⟩
  · rw [hof] at ht ⊢
    exact h.counted j hj ht
  · rw [hdin]
    exact h.words j hj
  · rw [hdin]
    refine h.clean j hj ?_
    rw [Sfs.sin_setSin] at hdj
    split at hdj
    · rename_i hji
      rw [hji, ← hn, hdj]
    · exact hdj

/-- The size and the blocks of a file are set. -/
theorem adjusted (h : Settled I s) (hI : ∀ j, s.cached j = true → j ∈ I) (ht : Adjusted I i s t)
    (hc : s.cached i = true) (hf : (s.din i).type = sfsTypeFile) : Settled I t := by
  have hsin : ∀ j, j ≠ i → t.din j = s.din j := fun j hj => congrArg SfsInode.din (ht.sin j hj)
  have hb : (t.din i).blocks = ((t.din i).size + 4095) / 4096 ∧ (t.din i).size < 2 ^ 32 := by
    obtain hs | ⟨-, hb, hsz⟩ := ht.count
    · have hdin : t.din i = s.din i := congrArg SfsInode.din hs
      have hcnt := h.counted i (hI i hc)
      rw [Acct.dinOf_of_cached hc] at hcnt
      rw [hdin]
      exact ⟨hcnt hf, (h.words i hc).1⟩
    · exact ⟨hb, lt_of_le_of_lt hsz (by decide)⟩
  refine ⟨fun j hj htj => ?_, fun j hj => ?_, fun j hj hdj => ?_⟩
  · by_cases hji : j = i
    · subst hji
      rw [Acct.dinOf_of_cached (by rw [ht.cached, hc])]
      exact hb.1
    · rw [ht.dinOf hj hji] at htj ⊢
      exact h.counted j hj htj
  · by_cases hji : j = i
    · subst hji
      refine ⟨hb.2, ?_, by omega⟩
      rw [ht.type]
      exact (h.words j hc).2.1
    · rw [hsin j hji]
      exact h.words j (by rwa [ht.cached] at hj)
  · rw [ht.cached] at hj
    rw [ht.disk j (hI j hj)]
    have hs : t.sin j = s.sin j := by
      by_cases hji : j = i
      · subst hji
        obtain hs | ⟨hd, -⟩ := ht.count
        · exact hs
        · rw [hd] at hdj
          cases hdj
      · exact ht.sin j hji
    rw [hs] at hdj
    rw [Sfs.din, hs]
    exact h.clean j hj hdj

/-- `sfs_fsync` writes the inode. -/
theorem synced (h : Settled I s) (hc : s.cached i = true) : Settled I (s.synced i) := by
  refine ⟨fun j hj ht => ?_, fun j hj => ?_, fun j hj hd => ?_⟩
  · rw [Acct.dinOf_synced hc] at ht ⊢
    exact h.counted j hj ht
  · rw [Sfs.din_synced]
    exact h.words j hj
  · rw [Sfs.din_synced, Sfs.disk_synced]
    by_cases hji : j = i
    · subst hji
      obtain ⟨h1, h2, h3⟩ := h.words j hc
      rw [if_pos rfl, Acct.ofBytes_bytes]
      exact ⟨Nat.mod_eq_of_lt h1, Nat.mod_eq_of_lt h2, Nat.mod_eq_of_lt h3⟩
    · rw [if_neg hji]
      refine h.clean j hj ?_
      have hs : ((s.setSin i fun sin => { sin with dirty := false }).sin j).dirty = false := hd
      rwa [Sfs.sin_setSin, if_neg hji] at hs

theorem fsync (h : Settled I s) (hc : s.cached i = true) {r : Except Errno Unit}
    (hr : Ucore.fsync dev i s = some (r, t)) : Settled I t := by
  obtain ⟨-, rfl⟩ | ⟨n, rfl, -⟩ := fsync_cases hr
  · exact (h.synced hc).wait 2
  · exact h.wait n

/-- An inode is read into memory. -/
theorem loaded (h : Settled I s) (hc : s.cached i = false) : Settled I (Acct.loaded s i) := by
  have hsin : ∀ j, j ≠ i → (Acct.loaded s i).sin j = s.sin j ∧
      ((Acct.loaded s i).cached j = true → s.cached j = true) := fun j hj => by
    simp [Acct.loaded, hj]
  have hi : (Acct.loaded s i).din i = .ofBytes (s.disk i) := by simp [Acct.loaded, Sfs.din]
  refine ⟨fun j hj ht => ?_, fun j hj => ?_, fun j hj hd => ?_⟩
  · rw [Acct.dinOf_loaded hc] at ht ⊢
    exact h.counted j hj ht
  · by_cases hji : j = i
    · subst hji
      rw [hi]
      exact ⟨Bytes.word_lt 4 0, Bytes.word_lt 2 4, Bytes.word_lt 4 8⟩
    · rw [Sfs.din, (hsin j hji).1]
      exact h.words j ((hsin j hji).2 hj)
  · by_cases hji : j = i
    · subst hji
      rw [hi]
      exact ⟨rfl, rfl, rfl⟩
    · rw [Sfs.din, (hsin j hji).1]
      rw [(hsin j hji).1] at hd
      exact h.clean j ((hsin j hji).2 hj) hd

/-- An inode that is not dirty leaves the memory. -/
theorem drop (h : Settled I s) (hc : s.cached i = true) (hd : (s.sin i).dirty = false) :
    Settled I { s with cached := Function.update s.cached i false } := by
  have hcd : ∀ j, ({ s with cached := Function.update s.cached i false } : Sfs).cached j = true →
      s.cached j = true := fun j hj => by
    by_cases hji : j = i
    · subst hji
      simp at hj
    · simpa [hji] using hj
  refine ⟨fun j hj ht => ?_, fun j hj => h.words j (hcd j hj), fun j hj => h.clean j (hcd j hj)⟩
  have hcnt := h.counted j hj
  by_cases hji : j = i
  · subst hji
    obtain ⟨h1, h2, h3⟩ := h.clean j hc hd
    have hof : ({ s with cached := Function.update s.cached j false } : Sfs).dinOf j =
        .ofBytes (s.disk j) := by simp [Sfs.dinOf]
    rw [Acct.dinOf_of_cached hc] at hcnt
    rw [hof] at ht ⊢
    rw [h1, h3]
    exact hcnt (h2 ▸ ht)
  · have hof : ({ s with cached := Function.update s.cached i false } : Sfs).dinOf j =
        s.dinOf j := by simp [Sfs.dinOf, Sfs.din, hji]
    rw [hof] at ht ⊢
    exact hcnt ht

end Settled

/-! ## Runs -/

/-- **One call.** -/
theorem step_settled (ha : Acct I E s) (h : Settled I s) {op : FileOp}
    (hl : (unbrokenMachine dev I).Legal s op) (hs : op.step dev s = some t) : Settled I t := by
  obtain ⟨hr, hu⟩ := hl
  cases op with
  | loadInode i =>
    obtain ⟨r, hs⟩ := map_snd_eq_some hs
    obtain ⟨hc, rfl⟩ | ⟨hc, -, rfl⟩ | ⟨n, rfl⟩ := loadInode_cases ha.geo hs
    · exact h.setSin rfl rfl
    · exact (h.wait 3).loaded hc
    · exact h.wait n
  | reclaim i =>
    obtain ⟨r, hs⟩ := map_snd_eq_some hs
    have h' := h.setSin (i := i)
      (f := fun sin => { sin with reclaimCount := sin.reclaimCount - 1 }) rfl rfl
    obtain rfl | ⟨v, r', hv, rfl | ⟨hd, rfl⟩⟩ := reclaim_cases ha hr hs
    · exact h'
    · exact h'.fsync hr hv
    · have hcv : v.cached i = true := by
        obtain ⟨-, rfl⟩ | ⟨n, rfl, -⟩ := fsync_cases hv
        · exact hr
        · exact hr
      exact (h'.fsync hr hv).drop hcv hd
  | hold i =>
    cases hs
    exact h.setSin rfl rfl
  | release i =>
    cases hs
    exact h.setSin rfl rfl
  | bmapLoad i k => cases hr
  | bmapTruncate i => cases hr
  | io i buf offset alen write =>
    obtain ⟨r, hs⟩ := map_snd_eq_some hs
    have hcnt := h.counted i (ha.cached i hr.1)
    rw [Acct.dinOf_of_cached hr.1] at hcnt
    exact h.adjusted ha.cached (ioNolock_count ha hr.1 (hcnt hr.2) hu hs) hr.1 hr.2
  | truncfile i len =>
    obtain ⟨r, hs⟩ := map_snd_eq_some hs
    exact h.adjusted ha.cached (truncfile_count ha hr.1 hu hs) hr.1 hr.2
  | tryseek i pos =>
    obtain ⟨r, hs⟩ := map_snd_eq_some hs
    exact h.adjusted ha.cached (tryseek_count ha hr.1 hu hs) hr.1 hr.2
  | fsync i =>
    obtain ⟨r, hs⟩ := map_snd_eq_some hs
    exact h.fsync hr hs

theorem reach_settled (h : (unbrokenMachine dev I).Reach s) :
    (∃ E, Acct I E s) ∧ Settled I s := by
  refine h.preserved (I := fun s => (∃ E, Acct I E s) ∧ Settled I s)
    (fun s hs => ⟨⟨∅, hs.1.acct⟩, hs.1.settled hs.2⟩) fun s op t ⟨⟨E, ha⟩, hi⟩ hl hs => ?_
  obtain ⟨E', -, -, ha'⟩ := (step_kept ha hl.1.legal hs).acct
  exact ⟨⟨E', ha'⟩, step_settled ha hi hl hs⟩

/-- **The number of blocks of a regular file is that of its size** after any calls that do not break
    off behind a block that they have added or freed, and a truncation to that size does not
    panic. -/
theorem blocks_of_size (h : (unbrokenMachine dev I).Reach s) :
    Counted I s ∧ ∀ i, s.cached i = true → (s.din i).type = sfsTypeFile → ∀ len : ℤ,
      (s.din i).size = len → Code.Runs (truncfile dev i len) s := by
  obtain ⟨⟨E, ha⟩, hs⟩ := reach_settled h
  refine ⟨hs.counted, fun i hc ht len hlen => ?_⟩
  have hcnt := hs.counted i (ha.cached i hc)
  rw [Acct.dinOf_of_cached hc] at hcnt
  unfold truncfile
  split
  · exact Code.Runs.throw _
  · rw [Code.runs_get_bind, if_pos hlen]
    refine Code.Runs.assert ?_
    rw [hcnt ht]
    omega

theorem counted_emptyFileImage : Counted {1, 3} emptyFileImage := by
  intro i hi _
  have h : i = 1 ∨ i = 3 := by simpa using hi
  rcases h with rfl | rfl <;> decide +kernel

/-- A file gets the blocks that there are, is made shorter, and is written back. -/
theorem blocks_of_size_full : ∃ s, (unbrokenMachine soundDevice {1, 3}).Reach s ∧
    s.unusedBlocks = 3 ∧ s.cached 3 = false ∧ Counted {1, 3} s := by
  have hrun : (((unbrokenMachine soundDevice {1, 3}).run emptyFileImage
      [.loadInode 3, .io 3 (fun _ => 7) 0 20480 true, .truncfile 3 10, .release 3,
        .reclaim 3]).bind fun s =>
        if s.unusedBlocks = 3 ∧ s.cached 3 = false then some () else none) = some () := by
    decide +kernel
  obtain ⟨s, hs, hif⟩ := Option.bind_eq_some_iff.1 hrun
  split at hif
  · rename_i hc
    have h0 : (unbrokenMachine soundDevice {1, 3}).Init emptyFileImage :=
      ⟨mounted_emptyFileImage, counted_emptyFileImage⟩
    have hr := (Machine.Reach.init h0).run hs
    exact ⟨s, hr, hc.1, hc.2, (blocks_of_size hr).1⟩
  · cases hif

/-- No data is written. -/
def mutedDevice : Device := ⟨fun _ req => if req = .write then some .inval else none⟩

/-- An empty file is sought to its sixth block when four are free, or written when the device fails:
    the blocks stay, and the next truncation to its size panics. -/
theorem blocks_left_over :
    (∃ s, (countMachine soundDevice {1, 3}).Reach s ∧ ((s.dinOf 3).type = sfsTypeFile ∧
      (s.dinOf 3).blocks = 4 ∧ (s.dinOf 3).size = 0) ∧ truncfile soundDevice 3 0 s = none) ∧
    ∃ s, (countMachine mutedDevice {1, 3}).Reach s ∧ ((s.dinOf 3).type = sfsTypeFile ∧
      (s.dinOf 3).blocks = 1 ∧ (s.dinOf 3).size = 0) ∧ truncfile mutedDevice 3 0 s = none := by
  have hseek : (((countMachine soundDevice {1, 3}).run emptyFileImage
      [.loadInode 3, .tryseek 3 20480]).bind fun s =>
        if ((s.dinOf 3).type = sfsTypeFile ∧ (s.dinOf 3).blocks = 4 ∧ (s.dinOf 3).size = 0) ∧
          (truncfile soundDevice 3 0 s).isNone = true then some () else none) = some () := by
    decide +kernel
  have hwrite : (((countMachine mutedDevice {1, 3}).run emptyFileImage
      [.loadInode 3, .io 3 (fun _ => 7) 0 1 true]).bind fun s =>
        if ((s.dinOf 3).type = sfsTypeFile ∧ (s.dinOf 3).blocks = 1 ∧ (s.dinOf 3).size = 0) ∧
          (truncfile mutedDevice 3 0 s).isNone = true then some () else none) = some () := by
    decide +kernel
  constructor
  · obtain ⟨s, hs, hif⟩ := Option.bind_eq_some_iff.1 hseek
    split at hif
    · rename_i hc
      have h0 : (countMachine soundDevice {1, 3}).Init emptyFileImage :=
        ⟨mounted_emptyFileImage, counted_emptyFileImage⟩
      exact ⟨s, (Machine.Reach.init h0).run hs, hc.1, Option.isNone_iff_eq_none.1 hc.2⟩
    · cases hif
  · obtain ⟨s, hs, hif⟩ := Option.bind_eq_some_iff.1 hwrite
    split at hif
    · rename_i hc
      have h0 : (countMachine mutedDevice {1, 3}).Init emptyFileImage :=
        ⟨mounted_emptyFileImage, counted_emptyFileImage⟩
      exact ⟨s, (Machine.Reach.init h0).run hs, hc.1, Option.isNone_iff_eq_none.1 hc.2⟩
    · cases hif

end Ucore
