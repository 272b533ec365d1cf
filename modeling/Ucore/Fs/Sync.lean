/-
  `sfs_sync` of `kern/fs/sfs/sfs_fs.c`, with `sfs_sync_super` and `sfs_sync_freemap` of `sfs_io.c`.

  The inodes in memory are given in the order of `inode_list`.

  * `syncInodes_run`: an inode is written, or it stays dirty; what `vop_fsync` returns is lost;
  * `syncMeta_run`: the superblock and the free map are written, or `super_dirty` is set again;
  * `sync_truthful_iff`: when the result of `sfs_sync` is right.
-/
import Ucore.Fs.Metadata
import Ucore.Fs.BlockMapErrors

namespace Ucore

/-! ## The code -/

section
variable (dev : Device)

/-- `sfs_sync_super`. -/
def syncSuper (m : SfsSuper) : K Unit := do
  let s ← Code.get
  Code.assert (sfsBlknSuper < s.blocks)
  request dev .write
  Code.modify fun s => s.setBlock sfsBlknSuper (Bytes.copy (fun _ => 0) 0 (s.super m).bytes 44)

/-- `sfs_wblock` of `nblks` blocks. -/
def wblocks (buf : Bytes) (blkno : ℕ) : ℕ → K Unit
  | 0 => pure ()
  | nblks + 1 => do
    wblock dev buf blkno
    wblocks (buf.from' 4096) (blkno + 1) nblks

/-- `sfs_sync_freemap`. -/
def syncFreemap : K Unit := do
  let s ← Code.get
  wblocks dev s.freemap.bytes sfsBlknFreemap s.freemapBlocks

/-- The loop of `sfs_sync`. -/
def syncInodes : List ℕ → K Unit
  | [] => pure ()
  | i :: l => do
    let _ ← Code.attempt (fsync dev i)
    syncInodes l

/-- `if ((ret = x) != 0) { sfs->super_dirty = 1; return ret; }` -/
def orDirty (x : K Unit) : K Unit := do
  match ← Code.attempt x with
  | .ok () => pure ()
  | .error ret => do
    Code.modify fun s => { s with superDirty := true }
    Code.throw ret

/-- `sfs_sync` behind its loop. -/
def syncMeta (m : SfsSuper) : K Unit := do
  let s ← Code.get
  if s.superDirty = true then do
    Code.modify fun s => { s with superDirty := false }
    orDirty (syncSuper dev m)
    orDirty (syncFreemap dev)
  else pure ()

def sfsSync (m : SfsSuper) (inodeList : List ℕ) : K Unit := do
  syncInodes dev inodeList
  syncMeta dev m

/-! ## What it should do -/

/-- The inodes of the list for which `vop_fsync` returns an error. -/
def failedSyncs : List ℕ → Sfs → List ℕ
  | [], _ => []
  | i :: l, s =>
    match fsync dev i s with
    | some (.error _, t) => i :: failedSyncs l t
    | some (.ok _, t) => failedSyncs l t
    | none => []

/-- From time `n` on, `d` inodes are read and written without an error. -/
def Device.Flushes (d n : ℕ) : Prop :=
  ∀ k < d, dev.fault (n + 2 * k) .read = none ∧ dev.fault (n + 2 * k + 1) .write = none

/-- The time when `d` inodes have been read, and written where that has not failed. -/
def Device.flushed : ℕ → ℕ → ℕ
  | 0, n => n
  | d + 1, n => if dev.fault n .read = none then flushed d (n + 2) else flushed d (n + 1)

/-- The write of the superblock at time `n` fails, or one of those of the free map, which has `k`
    blocks. -/
def Device.MetaFails (n k : ℕ) : Prop := ∃ j ≤ k, dev.fault (n + j) .write ≠ none

end

/-- The number of dirty inodes. -/
def Sfs.dirtyCount (s : Sfs) (l : List ℕ) : ℕ := l.countP fun i => (s.sin i).dirty

/-- **The result of `sfs_sync` is right**: if it is 0, all is on the disk; whatever could not be
    written is still dirty, and the result is an error. -/
def SyncTruthful (dev : Device) (m : SfsSuper) (l : List ℕ) (s : Sfs) : Prop :=
  ∃ r t, sfsSync dev m l s = some (r, t) ∧
    (r = .ok () → (∀ i, t.cached i = true → (t.sin i).dirty = false ∧ t.InodeStored i) ∧
      t.superDirty = false ∧ t.SuperStored m ∧ t.FreemapStored) ∧
    (∀ i ∈ failedSyncs dev l s, r ≠ .ok () ∧ (t.sin i).dirty = true) ∧
    (s.superDirty = true →
      dev.MetaFails (dev.flushed (s.dirtyCount l) s.time) s.freemapBlocks →
      r ≠ .ok () ∧ t.superDirty = true)

/-- The dirty inodes can be written and the others are on the disk, or the superblock is dirty and
    cannot be written, or the free map cannot. -/
def SyncHolds (dev : Device) (l : List ℕ) (s : Sfs) : Prop :=
  (dev.Flushes (s.dirtyCount l) s.time ∧ ∀ i ∈ l, (s.sin i).dirty = false → s.InodeStored i) ∨
    s.superDirty = true ∧ dev.MetaFails (dev.flushed (s.dirtyCount l) s.time) s.freemapBlocks

section
variable {dev : Device} {I : Finset ℕ} {E : Set ℕ} {s t u v : Sfs} {m : SfsSuper} {i k b n : ℕ}
  {l : List ℕ}

/-! ## The inodes -/

theorem fsync_clean (hd : (s.sin i).dirty = false) : fsync dev i s = some (.ok (), s) := by
  unfold fsync
  rw [Code.bind_ok (rfl : (Code.get : K Sfs) s = _), if_neg (by simp [hd])]
  rfl

section
variable (h0 : i ≠ 0) (hlt : i < s.blocks) (hd : (s.sin i).dirty = true)
include h0 hlt hd

theorem fsync_ok (hr : dev.fault s.time .read = none) (hw : dev.fault (s.time + 1) .write = none) :
    fsync dev i s = some (.ok (), (s.synced i).wait 2) := by
  have h : wbuf dev (s.din i).bytes 64 i 0 (s.setSin i fun sin => { sin with dirty := false }) =
      _ := wbuf_ok h0 hlt (by decide) (by decide) hr hw
  unfold fsync
  rw [Code.bind_ok (rfl : (Code.get : K Sfs) s = _), if_pos hd]
  exact (Code.bind_ok (rfl : Code.modify _ s = _)).trans ((Code.attempt_bind h).trans rfl)

theorem fsync_error (hf : dev.fault s.time .read ≠ none ∨ dev.fault (s.time + 1) .write ≠ none) :
    ∃ e, fsync dev i s = some (.error e,
      s.wait (if dev.fault s.time .read = none then 2 else 1)) := by
  have hrun : ∀ {e n}, wbuf dev (s.din i).bytes 64 i 0
      (s.setSin i fun sin => { sin with dirty := false }) =
        some (.error e, (s.setSin i fun sin => { sin with dirty := false }).wait n) →
      fsync dev i s = some (.error e, s.wait n) := fun {e n} h => by
    unfold fsync
    rw [Code.bind_ok (rfl : (Code.get : K Sfs) s = _), if_pos hd]
    refine (Code.bind_ok (rfl : Code.modify _ s = _)).trans ((Code.attempt_bind h).trans ?_)
    exact congrArg (fun t => some ((Except.error e : Except Errno Unit), t)) (setSin_dirty hd n)
  cases hr : dev.fault s.time .read with
  | some e => exact ⟨e, hrun (wbuf_read_error h0 hlt (by decide) (by decide) hr)⟩
  | none =>
    obtain ⟨e, hw⟩ := Option.ne_none_iff_exists'.1 (hf.resolve_left (by simp [hr]))
    exact ⟨e, hrun (wbuf_write_error h0 hlt (by decide) (by decide) hr hw)⟩

end

/-- What the loop has done: an inode that was not dirty is as it was, one of `F` could not be
    written, and the others are on the disk. -/
structure Flushed (l F : List ℕ) (s t : Sfs) : Prop where
  blocks : t.blocks = s.blocks
  unused : t.unusedBlocks = s.unusedBlocks
  superDirty : t.superDirty = s.superDirty
  freemap : t.freemap = s.freemap
  cached : t.cached = s.cached
  din : ∀ j, t.din j = s.din j
  sin : ∀ j ∉ l, t.sin j = s.sin j
  disk : ∀ b ∉ l, t.disk b = s.disk b
  clean : ∀ i ∈ l, (s.sin i).dirty = false →
    i ∉ F ∧ (t.sin i).dirty = false ∧ t.disk i = s.disk i
  written : ∀ i ∈ l, (s.sin i).dirty = true → i ∉ F → (t.sin i).dirty = false ∧ t.InodeStored i
  failed : ∀ i ∈ F, i ∈ l ∧ (t.sin i).dirty = true

theorem Flushed.nil (s : Sfs) : Flushed [] [] s s :=
  ⟨rfl, rfl, rfl, rfl, rfl, fun _ => rfl, fun _ _ => rfl, fun _ _ => rfl, by simp, by simp, by simp⟩

/-- Nothing is to be done for an inode. -/
theorem Flushed.cons_clean {F : List ℕ} (h : Flushed l F s t) (hi : i ∉ l)
    (hd : (s.sin i).dirty = false) : Flushed (i :: l) F s t where
  blocks := h.blocks
  unused := h.unused
  superDirty := h.superDirty
  freemap := h.freemap
  cached := h.cached
  din := h.din
  sin j hj := h.sin j fun hl => hj (List.mem_cons_of_mem i hl)
  disk b hb := h.disk b fun hl => hb (List.mem_cons_of_mem i hl)
  clean j hj hd' := by
    obtain rfl | hj := List.mem_cons.1 hj
    · exact ⟨fun hF => hi (h.failed j hF).1, by rw [h.sin j hi, hd], h.disk j hi⟩
    · exact h.clean j hj hd'
  written j hj hd' := by
    obtain rfl | hj := List.mem_cons.1 hj
    · rw [hd] at hd'
      cases hd'
    · exact h.written j hj hd'
  failed j hj := (h.failed j hj).imp_left (List.mem_cons_of_mem i)

/-- An inode has been written. -/
theorem Flushed.cons_written {F : List ℕ} (h : Flushed l F ((s.synced i).wait n) t) (hi : i ∉ l)
    (hd : (s.sin i).dirty = true) : Flushed (i :: l) F s t := by
  have hsin : ∀ j ≠ i, ((s.synced i).wait n).sin j = s.sin j := fun j hj => by
    change (s.setSin i fun sin => { sin with dirty := false }).sin j = _
    rw [Sfs.sin_setSin, if_neg hj]
  have hdisk : ∀ b ≠ i, ((s.synced i).wait n).disk b = s.disk b := fun b hb => by
    change (s.synced i).disk b = _
    rw [Sfs.disk_synced, if_neg hb]
  have hdin : ∀ j, t.din j = s.din j := fun j => (h.din j).trans Sfs.din_synced
  refine ⟨h.blocks, h.unused, h.superDirty, h.freemap, h.cached, hdin, fun j hj => ?_,
    fun b hb => ?_, fun j hj hd' => ?_, fun j hj hd' hF => ?_, fun j hj => ?_⟩
  · rw [List.mem_cons, not_or] at hj
    rw [h.sin j hj.2, hsin j hj.1]
  · rw [List.mem_cons, not_or] at hb
    rw [h.disk b hb.2, hdisk b hb.1]
  · have hji : j ≠ i := by
      rintro rfl
      rw [hd] at hd'
      cases hd'
    obtain ⟨h1, h2, h3⟩ := h.clean j (List.mem_of_ne_of_mem hji hj) (by rw [hsin j hji, hd'])
    exact ⟨h1, h2, h3.trans (hdisk j hji)⟩
  · by_cases hji : j = i
    · subst hji
      refine ⟨?_, fun q hq => ?_⟩
      · rw [h.sin j hi]
        change ((s.setSin j fun sin => { sin with dirty := false }).sin j).dirty = false
        rw [Sfs.sin_setSin, if_pos rfl]
      · rw [h.disk j hi, hdin]
        change (s.synced j).disk j q = _
        rw [Sfs.disk_synced, if_pos rfl, Bytes.copy_of_mem (by omega) (by omega),
          Bytes.copy_of_mem (by omega) (by omega)]
        rfl
    · exact h.written j (List.mem_of_ne_of_mem hji hj) (by rw [hsin j hji, hd']) hF
  · exact (h.failed j hj).imp_left (List.mem_cons_of_mem i)

/-- An inode could not be written. -/
theorem Flushed.cons_failed {F : List ℕ} (h : Flushed l F (s.wait n) t) (hi : i ∉ l)
    (hd : (s.sin i).dirty = true) : Flushed (i :: l) (i :: F) s t where
  blocks := h.blocks
  unused := h.unused
  superDirty := h.superDirty
  freemap := h.freemap
  cached := h.cached
  din := h.din
  sin j hj := h.sin j fun hl => hj (List.mem_cons_of_mem i hl)
  disk b hb := h.disk b fun hl => hb (List.mem_cons_of_mem i hl)
  clean j hj hd' := by
    have hji : j ≠ i := by
      rintro rfl
      rw [hd] at hd'
      cases hd'
    obtain ⟨h1, h2⟩ := h.clean j (List.mem_of_ne_of_mem hji hj) hd'
    exact ⟨by simp [hji, h1], h2⟩
  written j hj hd' hF := by
    rw [List.mem_cons, not_or] at hF
    exact h.written j (List.mem_of_ne_of_mem hF.1 hj) hd' hF.2
  failed j hj := by
    obtain rfl | hj := List.mem_cons.1 hj
    · refine ⟨List.mem_cons_self, ?_⟩
      rw [h.sin j hi]
      exact hd
    · exact (h.failed j hj).imp_left (List.mem_cons_of_mem i)

theorem Device.flushes_succ {d : ℕ} : dev.Flushes (d + 1) n ↔
    (dev.fault n .read = none ∧ dev.fault (n + 1) .write = none) ∧ dev.Flushes d (n + 2) := by
  refine ⟨fun h => ⟨h 0 (by omega), fun k hk => ?_⟩, fun h k hk => ?_⟩
  · have := h (k + 1) (by omega)
    rwa [show n + 2 * (k + 1) = n + 2 + 2 * k by omega] at this
  · cases k with
    | zero => exact h.1
    | succ k =>
      have := h.2 k (by omega)
      rwa [show n + 2 + 2 * k = n + 2 * (k + 1) by omega] at this

theorem Sfs.dirtyCount_congr (h : ∀ i ∈ l, t.sin i = s.sin i) : t.dirtyCount l = s.dirtyCount l :=
  List.countP_congr fun i hi => by rw [h i hi]

variable (dev) in
/-- **The loop**: the requests that it makes, and what it leaves. -/
theorem syncInodes_run : ∀ {l : List ℕ} {s : Sfs} {E : Set ℕ}, Acct I E s →
    (∀ i ∈ l, s.cached i = true) → l.Nodup → ∃ t, syncInodes dev l s = some (.ok (), t) ∧
      Flushed l (failedSyncs dev l s) s t ∧ t.time = dev.flushed (s.dirtyCount l) s.time ∧
      (failedSyncs dev l s = [] ↔ dev.Flushes (s.dirtyCount l) s.time) ∧ MetaKept s t ∧
      ∃ E', Acct I E' t
  | [], s, E, h, _, _ => ⟨s, rfl, .nil s, rfl,
      by simp [failedSyncs, Device.Flushes, Sfs.dirtyCount], .refl h.geo, E, h⟩
  | i :: l, s, E, h, hc, hn => by
    obtain ⟨hi, hn⟩ := List.nodup_cons.1 hn
    have hci := hc i List.mem_cons_self
    have hu := h.inode_used (h.cached i hci)
    -- what follows a call of `vop_fsync`
    have hrest : ∀ {r v}, fsync dev i s = some (r, v) → ∃ t, syncInodes dev (i :: l) s =
        some (.ok (), t) ∧ Flushed l (failedSyncs dev l v) v t ∧
          t.time = dev.flushed (v.dirtyCount l) v.time ∧
          (failedSyncs dev l v = [] ↔ dev.Flushes (v.dirtyCount l) v.time) ∧ MetaKept s t ∧
          ∃ E', Acct I E' t := fun {r v} hr => by
      obtain ⟨hk, hcv, -, -⟩ := fsync_spec h hci hr
      obtain ⟨E', -, -, ha⟩ := hk.acct
      obtain ⟨t, ht, h1, h2, h3, h4, h5⟩ := syncInodes_run ha
        (fun j hj => by rw [hcv]; exact hc j (List.mem_cons_of_mem i hj)) hn
      exact ⟨t, (Code.attempt_bind hr).trans ht, h1, h2, h3, (fsync_meta h hci hr).trans h4, h5⟩
    cases hd : (s.sin i).dirty with
    | false =>
      have hr : fsync dev i s = _ := fsync_clean hd
      have hcnt : s.dirtyCount (i :: l) = s.dirtyCount l :=
        List.countP_cons_of_neg (by simp [hd])
      obtain ⟨t, ht, h1, h2, h3, h4⟩ := hrest hr
      simp only [failedSyncs, hr, hcnt]
      exact ⟨t, ht, h1.cons_clean hi hd, h2, h3, h4⟩
    | true =>
      have hcnt : s.dirtyCount (i :: l) = s.dirtyCount l + 1 :=
        List.countP_cons_of_pos (by simp [hd])
      rw [hcnt, Device.flushes_succ, Device.flushed]
      by_cases hf : dev.fault s.time .read = none ∧ dev.fault (s.time + 1) .write = none
      · have hr := fsync_ok hu.1 hu.2.1 hd hf.1 hf.2
        have hl : ((s.synced i).wait 2).dirtyCount l = s.dirtyCount l :=
          Sfs.dirtyCount_congr fun j hj => by
            have hji : j ≠ i := by rintro rfl; exact hi hj
            change (s.setSin i fun sin => { sin with dirty := false }).sin j = _
            rw [Sfs.sin_setSin, if_neg hji]
        obtain ⟨t, ht, h1, h2, h3, h4⟩ := hrest hr
        rw [hl] at h2 h3
        simp only [failedSyncs, hr, if_pos hf.1]
        exact ⟨t, ht, h1.cons_written hi hd, h2, h3.trans (by simp [hf]; rfl), h4⟩
      · obtain ⟨e, hr⟩ := fsync_error hu.1 hu.2.1 hd (by rw [← not_and_or]; exact hf)
        obtain ⟨t, ht, h1, h2, h3, h4⟩ := hrest hr
        simp only [failedSyncs, hr]
        refine ⟨t, ht, h1.cons_failed hi hd, ?_, by simp [hf], h4⟩
        rw [h2]
        split <;> rfl

/-! ## The superblock and the free map -/

/-- `s` with `n` blocks from `blkno` on written. -/
def Sfs.wrote (s : Sfs) (buf : Bytes) (blkno n : ℕ) : Sfs :=
  { s with
    disk := fun b => if blkno ≤ b ∧ b < blkno + n
      then (s.disk b).copy 0 (buf.from' (4096 * (b - blkno))) 4096 else s.disk b
    time := s.time + n }

theorem Sfs.disk_wrote (buf : Bytes) (blkno n : ℕ) : (s.wrote buf blkno n).disk b =
    if blkno ≤ b ∧ b < blkno + n then (s.disk b).copy 0 (buf.from' (4096 * (b - blkno))) 4096
    else s.disk b := rfl

theorem Sfs.wrote_zero (buf : Bytes) (blkno : ℕ) : s.wrote buf blkno 0 = s := by
  have hd : (fun b => if blkno ≤ b ∧ b < blkno + 0
      then (s.disk b).copy 0 (buf.from' (4096 * (b - blkno))) 4096 else s.disk b) = s.disk := by
    funext b
    rw [if_neg (by omega)]
  unfold Sfs.wrote
  rw [hd]
  rfl

theorem Sfs.wrote_succ (buf : Bytes) (blkno n : ℕ) :
    ((s.wait 1).setBlock blkno buf).wrote (buf.from' 4096) (blkno + 1) n =
      s.wrote buf blkno (n + 1) := by
  have hd : (fun b => if blkno + 1 ≤ b ∧ b < blkno + 1 + n
      then (((s.wait 1).setBlock blkno buf).disk b).copy 0
        ((buf.from' 4096).from' (4096 * (b - (blkno + 1)))) 4096
      else ((s.wait 1).setBlock blkno buf).disk b) =
      fun b => if blkno ≤ b ∧ b < blkno + (n + 1)
        then (s.disk b).copy 0 (buf.from' (4096 * (b - blkno))) 4096 else s.disk b := by
    funext b
    rw [Sfs.disk_setBlock]
    by_cases hb : b = blkno
    · subst hb
      rw [if_neg (by omega), if_pos rfl, if_pos (by omega), Nat.sub_self, Nat.mul_zero]
      exact congrArg (fun m => Bytes.copy (s.disk b) 0 m 4096)
        (funext fun q => by rw [Bytes.from', Nat.zero_add])
    · rw [if_neg hb]
      by_cases hb' : blkno + 1 ≤ b ∧ b < blkno + 1 + n
      · rw [if_pos hb', if_pos (by omega)]
        refine congrArg (fun m => Bytes.copy (s.disk b) 0 m 4096) (funext fun q => ?_)
        rw [Bytes.from', Bytes.from', Bytes.from',
          show 4096 + (4096 * (b - (blkno + 1)) + q) = 4096 * (b - blkno) + q by omega]
      · rw [if_neg hb', if_neg (by omega)]
        rfl
  unfold Sfs.wrote
  rw [hd]
  change ({ s with disk := _, time := s.time + 1 + n } : Sfs) = _
  rw [Nat.add_assoc, Nat.add_comm 1 n]

variable (dev) in
/-- `sfs_wblock` writes all blocks, or stops at the first one that it cannot write. -/
theorem wblocks_run : ∀ (n blkno : ℕ) (buf : Bytes) {s : Sfs},
    (∀ k < n, blkno + k ≠ 0 ∧ blkno + k < s.blocks) →
    ((∀ k < n, dev.fault (s.time + k) .write = none) ∧
      wblocks dev buf blkno n s = some (.ok (), s.wrote buf blkno n)) ∨
    ((∃ k < n, dev.fault (s.time + k) .write ≠ none) ∧
      ∃ e k, k < n ∧ wblocks dev buf blkno n s = some (.error e, (s.wrote buf blkno k).wait 1))
  | 0, _, _, _, _ => .inl ⟨by simp, by rw [Sfs.wrote_zero]; rfl⟩
  | n + 1, blkno, buf, s, hb => by
    obtain ⟨h0, hlt⟩ := hb 0 (by omega)
    cases hf : dev.fault s.time .write with
    | some e =>
      refine .inr ⟨⟨0, by omega, by rw [Nat.add_zero, hf]; simp⟩, e, 0, by omega, ?_⟩
      rw [Sfs.wrote_zero]
      exact Code.bind_error (writeBlock_error h0 hlt hf)
    | none =>
      have hw : writeBlock dev .write buf blkno s = _ := writeBlock_ok h0 hlt hf
      have hb' : ∀ k < n, blkno + 1 + k ≠ 0 ∧ blkno + 1 + k < s.blocks := fun k hk => by
        have := hb (k + 1) (by omega)
        rwa [show blkno + (k + 1) = blkno + 1 + k by omega] at this
      have hshift : ∀ k, s.time + (k + 1) = s.time + 1 + k := fun k => by omega
      obtain ⟨ho, hr⟩ | ⟨⟨k, hk, hne⟩, e, j, hj, hr⟩ := wblocks_run n (blkno + 1)
        (buf.from' 4096) (s := (s.wait 1).setBlock blkno buf) hb'
      · refine .inl ⟨fun k hk => ?_, ?_⟩
        · cases k with
          | zero => exact hf
          | succ k =>
            rw [hshift]
            exact ho k (by omega)
        · rw [← Sfs.wrote_succ]
          exact (Code.bind_ok hw).trans hr
      · refine .inr ⟨⟨k + 1, by omega, by rw [hshift]; exact hne⟩, e, j + 1, by omega, ?_⟩
        rw [← Sfs.wrote_succ]
        exact (Code.bind_ok hw).trans hr

/-- Only the superblock and the free map on the disk differ, and `super_dirty`. -/
structure MetaOnly (s t : Sfs) : Prop where
  blocks : t.blocks = s.blocks
  unused : t.unusedBlocks = s.unusedBlocks
  freemap : t.freemap = s.freemap
  sin : t.sin = s.sin
  cached : t.cached = s.cached
  disk : ∀ b, b ≠ sfsBlknSuper → ¬s.InFreemap b → t.disk b = s.disk b

theorem MetaOnly.refl (s : Sfs) : MetaOnly s s := ⟨rfl, rfl, rfl, rfl, rfl, fun _ _ _ => rfl⟩

theorem MetaOnly.acct (h : MetaOnly s t) (ha : Acct I E s) : Acct I E t := by
  have hdisk : ∀ i ∈ I, t.disk i = s.disk i := fun i hi =>
    h.disk i (ha.inode_ne_zero hi) fun hf => ha.inode_ne_freemap hf hi rfl
  have hdin : ∀ i, t.din i = s.din i := fun i => by rw [Sfs.din, h.sin, Sfs.din]
  have hdinOf : ∀ i ∈ I, t.dinOf i = s.dinOf i := fun i hi => by
    rw [Sfs.dinOf, Sfs.dinOf, h.cached, hdin, hdisk i hi]
  have hused : {b | t.Used b} = {b | s.Used b} := by
    ext b
    change b ≠ 0 ∧ b < t.blocks ∧ t.freemap.bit b = false ↔ _
    rw [h.blocks, h.freemap]
    rfl
  refine ⟨ha.geo.congr h.freemap h.blocks, ha.nonzero, by rw [h.unused, h.freemap, ha.count], ?_,
    fun i hi => ha.cached i (h.cached ▸ hi), fun i hi hd => ?_, fun i hi => ?_⟩
  · rw [hused]
    refine ha.ledger.congr (slot_congr h.blocks (fun i hi => by rw [hdinOf i hi]; exact ⟨rfl, rfl⟩)
      fun i hi h0 => h.disk _ (ha.indirect_used hi h0).1 fun hf => ?_)
    exact ha.indirect_ne_freemap hf hi rfl
  · rw [h.cached] at hi
    rw [h.sin] at hd
    rw [hdisk i (ha.cached i hi), hdin]
    exact ha.clean i hi hd
  · rw [h.cached] at hi
    rw [hdisk i (ha.cached i hi), hdin]
    exact ha.links i hi

theorem orDirty_ok {x : K Unit} (h : x s = some (.ok (), t)) : orDirty x s = some (.ok (), t) :=
  (Code.attempt_bind h).trans rfl

theorem orDirty_error {x : K Unit} {e : Errno} (h : x s = some (.error e, t)) :
    orDirty x s = some (.error e, { t with superDirty := true }) :=
  (Code.attempt_bind h).trans rfl

theorem syncSuper_ok (hb : 0 < s.blocks) (hf : dev.fault s.time .write = none) :
    syncSuper dev m s = some (.ok (), (s.wait 1).setBlock sfsBlknSuper
      (Bytes.copy (fun _ => 0) 0 (s.super m).bytes 44)) :=
  (Code.bind_ok (rfl : (Code.get : K Sfs) s = _)).trans ((Code.assert_bind hb).trans
    (Code.bind_ok (request_ok hf)))

theorem syncSuper_error {e : Errno} (hb : 0 < s.blocks) (hf : dev.fault s.time .write = some e) :
    syncSuper dev m s = some (.error e, s.wait 1) :=
  (Code.bind_ok (rfl : (Code.get : K Sfs) s = _)).trans ((Code.assert_bind hb).trans
    (Code.bind_error (request_error hf)))

/-- `s` with the superblock written, and `k` blocks of the free map. -/
def Sfs.metaWritten (s : Sfs) (m : SfsSuper) (k : ℕ) : Sfs :=
  (({ s with superDirty := false }.wait 1).setBlock sfsBlknSuper
    (Bytes.copy (fun _ => 0) 0 (s.super m).bytes 44)).wrote s.freemap.bytes sfsBlknFreemap k

theorem Sfs.metaOnly_written (hk : k ≤ s.freemapBlocks) : MetaOnly s (s.metaWritten m k) := by
  refine ⟨rfl, rfl, rfl, rfl, rfl, fun b h0 hb => ?_⟩
  rw [Sfs.InFreemap] at hb
  rw [Sfs.metaWritten, Sfs.disk_wrote, if_neg (by omega), Sfs.disk_setBlock, if_neg h0]
  rfl

theorem Sfs.superStored_written : (s.metaWritten m k).SuperStored m := by
  intro q hq
  rw [Sfs.metaWritten, Sfs.disk_wrote, if_neg (fun h => absurd h.1 (by decide)),
    Sfs.disk_setBlock, if_pos rfl,
    Bytes.copy_of_mem (by omega) (by omega), Bytes.copy_of_mem (by omega) (by omega)]
  rfl

theorem Sfs.freemapStored_written : (s.metaWritten m s.freemapBlocks).FreemapStored := by
  intro k hk q hq
  have hk' : k < s.freemapBlocks := hk
  rw [Sfs.metaWritten, Sfs.disk_wrote, if_pos ⟨by omega, by omega⟩,
    Bytes.copy_of_mem (by omega) (by omega), Nat.add_sub_cancel_left]
  rfl

variable (dev m) in
/-- **Behind the loop**: all is written, or `super_dirty` is set again. -/
theorem syncMeta_run (hb : 0 < s.blocks) (hf : ∀ b, s.InFreemap b → b ≠ 0 ∧ b < s.blocks) :
    ∃ r t, syncMeta dev m s = some (r, t) ∧ MetaOnly s t ∧
      ((s.superDirty = false ∧ r = .ok () ∧ t = s) ∨
        s.superDirty = true ∧ ((¬dev.MetaFails s.time s.freemapBlocks ∧ r = .ok () ∧
          t.superDirty = false ∧ t.SuperStored m ∧ t.FreemapStored) ∨
          dev.MetaFails s.time s.freemapBlocks ∧ (∃ e, r = .error e) ∧ t.superDirty = true)) := by
  by_cases hd : s.superDirty = true
  · have hrun : ∀ x, syncMeta dev m s = x ↔ (do
        orDirty (syncSuper dev m)
        orDirty (syncFreemap dev) : K Unit) { s with superDirty := false } = x := fun x => by
      unfold syncMeta
      rw [Code.bind_ok (rfl : (Code.get : K Sfs) s = _), if_pos hd]
      exact Iff.rfl
    simp only [hrun]
    cases hw : dev.fault s.time .write with
    | some e =>
      refine ⟨.error e, { { s with superDirty := false }.wait 1 with superDirty := true }, ?_,
        ⟨rfl, rfl, rfl, rfl, rfl, fun _ _ _ => rfl⟩,
        .inr ⟨hd, .inr ⟨⟨0, Nat.zero_le _, ?_⟩, ⟨e, rfl⟩, rfl⟩⟩⟩
      · exact Code.bind_error (orDirty_error (syncSuper_error
          (s := { s with superDirty := false }) hb hw))
      · rw [Nat.add_zero, hw]
        simp
    | none =>
      have hs := orDirty_ok (syncSuper_ok (m := m) (s := { s with superDirty := false }) hb hw)
      have hin : ∀ k < s.freemapBlocks, sfsBlknFreemap + k ≠ 0 ∧ sfsBlknFreemap + k < s.blocks :=
        fun k hk => hf _ ⟨by omega, by omega⟩
      have hshift : ∀ k, s.time + (k + 1) = s.time + 1 + k := fun k => by omega
      obtain ⟨ho, hr⟩ | ⟨⟨k, hk, hne⟩, e, j, hj, hr⟩ := wblocks_run dev _ _
        s.freemap.bytes (s := ({ s with superDirty := false }.wait 1).setBlock sfsBlknSuper
          (Bytes.copy (fun _ => 0) 0 (s.super m).bytes 44)) hin
      · refine ⟨.ok (), s.metaWritten m s.freemapBlocks, ?_, Sfs.metaOnly_written le_rfl,
          .inr ⟨hd, .inl ⟨?_, rfl, rfl, Sfs.superStored_written, Sfs.freemapStored_written⟩⟩⟩
        · exact (Code.bind_ok hs).trans (orDirty_ok hr)
        · rintro ⟨k, hk, hne⟩
          cases k with
          | zero => exact hne hw
          | succ k =>
            rw [hshift] at hne
            exact hne (ho k (by omega))
      · have ho := Sfs.metaOnly_written (m := m) hj.le
        refine ⟨.error e, { (s.metaWritten m j).wait 1 with superDirty := true }, ?_,
          ⟨rfl, rfl, rfl, rfl, rfl, ho.disk⟩,
          .inr ⟨hd, .inr ⟨⟨k + 1, by omega, ?_⟩, ⟨e, rfl⟩, rfl⟩⟩⟩
        · exact (Code.bind_ok hs).trans (orDirty_error hr)
        · rw [hshift]
          exact hne
  · refine ⟨.ok (), s, ?_, .refl s, .inl ⟨by simpa using hd, rfl, rfl⟩⟩
    unfold syncMeta
    rw [Code.bind_ok (rfl : (Code.get : K Sfs) s = _), if_neg hd]
    rfl

/-! ## Runs -/

inductive SyncOp where
  | call (op : FileOp)
  | sync (inodeList : List ℕ)

/-- `l` are the inodes in memory, each once. -/
def InodeList (I : Finset ℕ) (s : Sfs) (l : List ℕ) : Prop :=
  l.Nodup ∧ (∀ i ∈ l, s.cached i = true) ∧ ∀ i ∈ I, s.cached i = true → i ∈ l

/-- The calls on files, and `sfs_sync`, of a file system that has been mounted. -/
def syncMachine (dev : Device) (m : SfsSuper) (I : Finset ℕ) : Machine Sfs SyncOp where
  Init s := Mounted I s ∧ sfsBlknRoot ∈ I ∧ s.superDirty = false ∧ s.SuperStored m ∧ s.FreemapStored
  Legal
    | s, .call op => op.Legal I s
    | s, .sync l => InodeList I s l
  step
    | s, .call op => op.step dev s
    | s, .sync l => (sfsSync dev m l s).map Prod.snd

/-- The accounts are right, and a superblock that is not dirty is on the disk, with the free map. -/
structure Recorded (m : SfsSuper) (I : Finset ℕ) (s : Sfs) : Prop where
  acct : ∃ E, Acct I E s
  root : sfsBlknRoot ∈ I
  stored : s.superDirty = false → s.SuperStored m ∧ s.FreemapStored

theorem MetaKept.recorded (h : MetaKept s t) (hs : Recorded m I s) (ha : ∃ E, Acct I E t) :
    Recorded m I t := by
  refine ⟨ha, hs.root, fun hd => ?_⟩
  obtain ⟨hd', hu, hf⟩ := h.clean hd
  obtain ⟨h1, h2⟩ := hs.stored hd'
  have hfb : t.freemapBlocks = s.freemapBlocks := congrArg (fun n => (n + 32767) / 32768) h.blocks
  refine ⟨fun q hq => ?_, fun k hk q hq => ?_⟩
  · rw [h.disk, Sfs.super, h.blocks, hu]
    exact h1 q hq
  · rw [hfb] at hk
    rw [h.map _ ⟨by omega, by omega⟩, hf]
    exact h2 k hk q hq

variable (dev) in
/-- **`sfs_sync`** from a state that a run reaches. -/
theorem sfsSync_run (h : Recorded m I s) (hl : InodeList I s l) : ∃ r v t,
    sfsSync dev m l s = some (r, t) ∧ Flushed l (failedSyncs dev l s) s v ∧
      (failedSyncs dev l s = [] ↔ dev.Flushes (s.dirtyCount l) s.time) ∧ MetaOnly v t ∧
      Recorded m I v ∧ Recorded m I t ∧ ((s.superDirty = false ∧ r = .ok () ∧ t = v) ∨
        s.superDirty = true ∧
          ((¬dev.MetaFails (dev.flushed (s.dirtyCount l) s.time) s.freemapBlocks ∧ r = .ok () ∧
            t.superDirty = false ∧ t.SuperStored m ∧ t.FreemapStored) ∨
          dev.MetaFails (dev.flushed (s.dirtyCount l) s.time) s.freemapBlocks ∧
            (∃ e, r = .error e) ∧ t.superDirty = true)) := by
  obtain ⟨E, ha⟩ := h.acct
  obtain ⟨v, hv, hfl, htime, hfail, hmeta, E', hav⟩ := syncInodes_run dev ha hl.2.1 hl.1
  have hrv := hmeta.recorded h ⟨E', hav⟩
  have hfb : v.freemapBlocks = s.freemapBlocks :=
    congrArg (fun n => (n + 32767) / 32768) hfl.blocks
  have hroot := hav.inode_used h.root
  obtain ⟨r, t, ht, hmo, hcases⟩ := syncMeta_run dev m (s := v)
    (lt_trans (by decide) hroot.2.1) fun b hb => (hav.freemap_used hb).imp_right And.left
  rw [hfl.superDirty, htime, hfb] at hcases
  refine ⟨r, v, t, (Code.bind_ok hv).trans ht, hfl, hfail, hmo, hrv, ⟨⟨E', hmo.acct hav⟩, h.root,
    fun hd => ?_⟩, hcases⟩
  obtain ⟨-, -, rfl⟩ | ⟨-, ⟨-, -, -, h1⟩ | ⟨-, -, hd'⟩⟩ := hcases
  · exact hrv.stored hd
  · exact h1
  · rw [hd] at hd'
    cases hd'

theorem reach_recorded (h : (syncMachine dev m I).Reach s) : Recorded m I s := by
  refine h.preserved (fun s hs => ⟨⟨∅, hs.1.acct⟩, hs.2.1, fun _ => hs.2.2.2⟩)
    fun s op t hi hl hs => ?_
  cases op with
  | call op =>
    obtain ⟨E, ha⟩ := hi.acct
    obtain ⟨E', -, -, ha'⟩ := (step_kept ha hl hs).acct
    exact (step_meta ha hl hs).recorded hi ⟨E', ha'⟩
  | sync l =>
    obtain ⟨r, v, t', ht, -, -, -, -, hr, -⟩ := sfsSync_run dev hi hl
    obtain ⟨r', hr'⟩ := map_snd_eq_some hs
    rw [ht] at hr'
    cases hr'
    exact hr

/-- **When `sfs_sync` tells the truth.** -/
theorem sync_truthful_iff (h : (syncMachine dev m I).Reach s) (hl : InodeList I s l) :
    SyncTruthful dev m l s ↔ SyncHolds dev l s := by
  have hrec := reach_recorded h
  obtain ⟨r, v, t, ht, hfl, hfail, hmo, hrv, hrt, hcases⟩ := sfsSync_run dev hrec hl
  obtain ⟨E, ha⟩ := hrec.acct
  have hcv : t.cached = s.cached := hmo.cached.trans hfl.cached
  have hmem : ∀ {i}, t.cached i = true → i ∈ l := fun {i} hi => by
    rw [hcv] at hi
    exact hl.2.2 i (ha.cached i hi) hi
  have hdisk : ∀ i ∈ l, t.disk i = v.disk i := fun i hi => by
    have hi' := ha.cached i (hl.2.1 i hi)
    obtain ⟨E', hav⟩ := hrv.acct
    exact hmo.disk i (hav.inode_ne_zero hi') fun hf => hav.inode_ne_freemap hf hi' rfl
  have hdin : ∀ i, t.din i = v.din i := fun i => by rw [Sfs.din, hmo.sin, Sfs.din]
  have hst : ∀ i ∈ l, t.InodeStored i ↔ v.InodeStored i := fun i hi => by
    rw [Sfs.InodeStored, Sfs.InodeStored, hdisk i hi, hdin]
  -- an inode that was not dirty has not been written
  have hclean : ∀ i ∈ l, (s.sin i).dirty = false → (t.InodeStored i ↔ s.InodeStored i) :=
    fun i hi hd => by
      rw [hst i hi, Sfs.InodeStored, Sfs.InodeStored, (hfl.clean i hi hd).2.2, hfl.din]
  have hflush : dev.Flushes (s.dirtyCount l) s.time →
      (∀ i ∈ l, (s.sin i).dirty = false → s.InodeStored i) →
      ∀ i, t.cached i = true → (t.sin i).dirty = false ∧ t.InodeStored i := fun hf hc i hi => by
    have hil := hmem hi
    rw [hmo.sin]
    cases hd : (s.sin i).dirty with
    | false => exact ⟨(hfl.clean i hil hd).2.1, (hclean i hil hd).2 (hc i hil hd)⟩
    | true =>
      obtain ⟨h1, h2⟩ := hfl.written i hil hd (by rw [hfail.2 hf]; simp)
      exact ⟨h1, (hst i hil).2 h2⟩
  have hfailed : ∀ i ∈ failedSyncs dev l s, (t.sin i).dirty = true := fun i hi => by
    rw [hmo.sin]
    exact (hfl.failed i hi).2
  constructor
  · rintro ⟨r', t', ht', hok, hF, -⟩
    rw [ht] at ht'
    cases ht'
    have hleft : r = .ok () → SyncHolds dev l s := fun hr => by
      refine .inl ⟨hfail.1 (List.eq_nil_iff_forall_not_mem.2 fun i hi => (hF i hi).1 hr), ?_⟩
      intro i hi hd
      exact (hclean i hi hd).1 ((hok hr).1 i (by rw [hcv]; exact hl.2.1 i hi)).2
    obtain ⟨-, hr, -⟩ | ⟨hd, ⟨-, hr, -⟩ | ⟨hm, -⟩⟩ := hcases
    · exact hleft hr
    · exact hleft hr
    · exact .inr ⟨hd, hm⟩
  · intro hh
    refine ⟨r, t, ht, ?_⟩
    obtain ⟨hd, rfl, rfl⟩ | ⟨hd, ⟨hm, rfl, hdt, hs1, hs2⟩ | ⟨hm, ⟨e, rfl⟩, hdt⟩⟩ := hcases
    · obtain ⟨hf, hc⟩ | ⟨hd', -⟩ := hh
      · have hdt : t.superDirty = false := hfl.superDirty.trans hd
        refine ⟨fun _ => ⟨hflush hf hc, hdt, hrt.stored hdt⟩, fun i hi => ?_, fun hd' => ?_⟩
        · rw [hfail.2 hf] at hi
          cases hi
        · rw [hd] at hd'
          cases hd'
      · rw [hd] at hd'
        cases hd'
    · obtain ⟨hf, hc⟩ | ⟨-, hm'⟩ := hh
      · refine ⟨fun _ => ⟨hflush hf hc, hdt, hs1, hs2⟩, fun i hi => ?_, fun _ hm' => absurd hm' hm⟩
        rw [hfail.2 hf] at hi
        cases hi
      · exact absurd hm' hm
    · exact ⟨fun hr => (by cases hr), fun i hi => ⟨by simp, hfailed i hi⟩,
        fun _ _ => ⟨by simp, hdt⟩⟩

instance (dev : Device) (m : SfsSuper) (I : Finset ℕ) (s : Sfs) :
    ∀ op, Decidable ((syncMachine dev m I).Legal s op)
  | .call op => inferInstanceAs (Decidable (op.Legal I s))
  | .sync l => inferInstanceAs (Decidable (l.Nodup ∧ (∀ i ∈ l, s.cached i = true) ∧
      ∀ i ∈ I, s.cached i = true → i ∈ l))

theorem MetaOnly.mounted (h : MetaOnly s t) (hs : Mounted I s) : Mounted I t where
  geometry := (h.acct hs.acct).geo
  inodes := hs.inodes
  accounts := (h.acct hs.acct).accounts
  cached i := by rw [h.cached, hs.cached i]

/-- The superblock of the image with an empty file. -/
def imageSuper : SfsSuper := ⟨sfsMagic, 8, 4, fun _ => 0⟩

/-- The image with an empty file, with its superblock and its free map. -/
def storedImage : Sfs :=
  { emptyFileImage with
    disk := fun b =>
      if b = sfsBlknSuper then imageSuper.bytes
      else if b = sfsBlknFreemap then emptyFileImage.freemap.bytes
      else emptyFileImage.disk b }

theorem init_storedImage (dev : Device) : (syncMachine dev imageSuper {1, 3}).Init storedImage := by
  have hone : emptyFileImage.freemapBlocks = 1 := rfl
  have hm : MetaOnly emptyFileImage storedImage := by
    refine ⟨rfl, rfl, rfl, rfl, rfl, fun b h0 hb => ?_⟩
    have h2 : b ≠ sfsBlknFreemap := fun e => hb (by rw [Sfs.InFreemap, hone, e]; omega)
    exact (if_neg h0).trans (if_neg h2)
  refine ⟨hm.mounted mounted_emptyFileImage, by decide, rfl, fun q _ => rfl, fun k hk q _ => ?_⟩
  have hk' : k < 1 := hk
  obtain rfl : k = 0 := by omega
  rw [Nat.mul_zero, Nat.zero_add]
  rfl

/-- A file is made one of a block: it can be written, and so can the superblock. -/
theorem sync_truthful_iff_sound : ∃ s, (syncMachine soundDevice imageSuper {1, 3}).Reach s ∧
    InodeList {1, 3} s [3] ∧ (s.sin 3).dirty = true ∧
      SyncTruthful soundDevice imageSuper [3] s := by
  have hrun : (((syncMachine soundDevice imageSuper {1, 3}).run storedImage
      [.call (.loadInode 3), .call (.truncfile 3 100)]).bind fun s =>
        if s.cached 3 = true ∧ s.cached 1 = false ∧ (s.sin 3).dirty = true
          then some () else none) = some () := by decide +kernel
  obtain ⟨s, hs, hif⟩ := Option.bind_eq_some_iff.1 hrun
  split at hif
  · rename_i hc
    obtain ⟨h3, h1, hd⟩ := hc
    have hr := (Machine.Reach.init (init_storedImage soundDevice)).run hs
    have hl : InodeList {1, 3} s [3] := ⟨by simp, by simp [h3], by simp [h1]⟩
    refine ⟨s, hr, hl, hd, (sync_truthful_iff hr hl).2 (.inl ⟨fun _ _ => ⟨rfl, rfl⟩, ?_⟩)⟩
    simp [hd]
  · cases hif

/-- A disk to which nothing can be written from the ninth request on. -/
def wornDevice : Device := ⟨fun n req => if req = .write ∧ 9 ≤ n then some .inval else none⟩

/-- Only the inode is to be written, and that fails: the result is 0. -/
theorem sync_loses_error : ∃ s, (syncMachine wornDevice imageSuper {1, 3}).Reach s ∧
    InodeList {1, 3} s [3] ∧ ¬SyncTruthful wornDevice imageSuper [3] s := by
  have hrun : (((syncMachine wornDevice imageSuper {1, 3}).run storedImage
      [.call (.loadInode 3), .call (.truncfile 3 100), .sync [3], .call (.truncfile 3 200)]).bind
        fun s => if s.cached 3 = true ∧ s.cached 1 = false ∧
          ((sfsSync wornDevice imageSuper [3] s).map fun p =>
            p.1.toBool && (p.2.sin 3).dirty && p.2.cached 3) = some true
          then some () else none) = some () := by decide +kernel
  obtain ⟨s, hs, hif⟩ := Option.bind_eq_some_iff.1 hrun
  split at hif
  · rename_i hc
    obtain ⟨h3, h1, hp⟩ := hc
    refine ⟨s, (Machine.Reach.init (init_storedImage wornDevice)).run hs,
      ⟨by simp, by simp [h3], by simp [h1]⟩, ?_⟩
    rintro ⟨r, t, ht, hok, -⟩
    rw [ht, Option.map_some, Option.some.injEq, Bool.and_eq_true, Bool.and_eq_true] at hp
    obtain ⟨⟨hr, hd⟩, hc⟩ := hp
    have hr' : r = .ok () := by
      cases r with
      | ok => rfl
      | error e => cases hr
    have := ((hok hr').1 3 hc).1
    rw [hd] at this
    cases this
  · cases hif

end

end Ucore
