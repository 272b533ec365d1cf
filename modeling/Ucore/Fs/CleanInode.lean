/-
  An inode in memory that is not dirty, and the one on the disk.

  `sfs_bmap_load_nolock` counts a block without setting `dirty`: that is left to the slot that is
  written for the block, and to the size that is set at the end of the call.

  * `bmapLoad_keeps`, …: no part of a call on a file clears `dirty`, or changes the number of
    blocks;
-/
import Ucore.Fs.BlockCountRun

namespace Ucore

open Code

/-- The inode is dirty. -/
abbrev Sfs.Dirty (i : ℕ) (s : Sfs) : Prop := (s.sin i).dirty = true

section
variable {dev : Device} {i j b k n : ℕ}

/-! ## What a call keeps -/

/-- Kept by the single updates of the state, but for those that clear `dirty`. -/
structure Sfs.Lasting (P : Sfs → Prop) : Prop where
  wait : ∀ s n, P s → P (s.wait n)
  setBlock : ∀ s b m, P s → P (s.setBlock b m)
  freemap : ∀ s bm, P s → P { s with freemap := bm }
  unused : ∀ s n, P s → P { s with unusedBlocks := n, superDirty := true }
  setDin : ∀ s j f, P s → P (s.setDin j f)
  blocks : ∀ s j, P s → P (s.setSin j fun sin =>
    { sin with din := { sin.din with blocks := sin.din.blocks + 1 } })

theorem setSin_keeps {f : SfsInode → SfsInode} (hf : ∀ sin, sin.dirty = true → (f sin).dirty = true)
    (s : Sfs) (h : s.Dirty i) : (s.setSin j f).Dirty i := by
  rw [Sfs.Dirty, Sfs.sin_setSin]
  split
  · rename_i hij
    exact hf _ (hij ▸ h)
  · exact h

theorem Sfs.lasting_dirty : Sfs.Lasting (Sfs.Dirty i) where
  wait _ _ h := h
  setBlock _ _ _ h := h
  freemap _ _ h := h
  unused _ _ h := h
  setDin s _ _ h := setSin_keeps (fun _ _ => rfl) s h
  blocks s j h := setSin_keeps (i := i) (j := j) (f := fun sin =>
    { sin with din := { sin.din with blocks := sin.din.blocks + 1 } }) (fun _ h => h) s h

/-- Kept by the functions on blocks and the single updates of the inodes that a call makes. -/
structure Sfs.Stable (dev : Device) (P : Sfs → Prop) : Prop where
  wait : ∀ s n, P s → P (s.wait n)
  write : ∀ req buf b, (writeBlock dev req buf b).Keeps P
  inuse : ∀ b, (assertInuse b).Keeps P
  alloc : (blockAlloc dev).Keeps P
  free : ∀ b, (blockFree b).Keeps P
  setDin : ∀ s j f, P s → P (s.setDin j f)
  blocks : ∀ s j, P s → P (s.setSin j fun sin =>
    { sin with din := { sin.din with blocks := sin.din.blocks + 1 } })

theorem request_keeps {P : Sfs → Prop} (hP : ∀ s n, P s → P (s.wait n)) {req : Request} :
    (request dev req).Keeps P := by
  refine Keeps.get.bind fun s => Keeps.bind (.modify fun s => hP s 1) fun _ => ?_
  split
  · exact .pure _
  · exact .throw _

theorem Sfs.Lasting.stable {P : Sfs → Prop} (hP : Sfs.Lasting P) : Sfs.Stable dev P := by
  have hwrite : ∀ req buf b, (writeBlock dev req buf b).Keeps P := fun _ buf b =>
    (Keeps.get.bind fun _ => .assert _).bind fun _ => (request_keeps hP.wait).bind fun _ =>
      .modify fun s => hP.setBlock s b buf
  have hmap : ∀ {α : Type} (x : Code Bitmap Errno α), (onFreemap x).Keeps P := fun _ =>
    .on fun s bm h => hP.freemap s bm h
  have hinuse : ∀ b, (assertInuse b).Keeps P := fun b =>
    Keeps.get.bind fun _ => (Keeps.assert _).bind fun _ => (hmap _).bind fun _ => .assert _
  refine ⟨hP.wait, hwrite, hinuse, ?_, fun b => ?_, hP.setDin, hP.blocks⟩
  · exact (hmap _).bind fun _ => Keeps.get.bind fun _ => (Keeps.assert _).bind fun _ =>
      (Keeps.modify fun s => hP.unused s _).bind fun _ => (hinuse _).bind fun _ =>
        (hwrite _ _ _).bind fun _ => .pure _
  · exact (hinuse b).bind fun _ => (hmap _).bind fun _ => .modify fun s => hP.unused s _

section
variable {P : Sfs → Prop} (hP : Sfs.Stable dev P)
include hP

theorem readBlock_keeps : (readBlock dev b).Keeps P :=
  (Keeps.get.bind fun _ => .assert _).bind fun _ => (request_keeps hP.wait).bind fun _ =>
    Keeps.get.bind fun _ => .pure _

theorem rbuf_keeps {len offset : ℕ} : (rbuf dev len b offset).Keeps P :=
  (Keeps.assert _).bind fun _ => (readBlock_keeps hP).bind fun _ => .pure _

theorem wbuf_keeps {buf : Bytes} {len offset : ℕ} : (wbuf dev buf len b offset).Keeps P :=
  (Keeps.assert _).bind fun _ => (readBlock_keeps hP).bind fun _ => hP.write _ _ _

theorem failedCleanup_keeps {entp ent : ℕ} {ret : Errno} : (failedCleanup entp ent ret).Keeps P :=
  .ite ((hP.free _).bind fun _ => .throw _) (.throw _)

theorem bmapAddEntry_keeps {entp ent index : ℕ} : (bmapAddEntry dev entp ent index).Keeps P :=
  (hP.alloc.attempt).bind fun r => by
    cases r with
    | error ret => exact failedCleanup_keeps hP
    | ok ino =>
      refine ((wbuf_keeps hP).attempt).bind fun r => ?_
      cases r with
      | error ret => exact (hP.free _).bind fun _ => failedCleanup_keeps hP
      | ok u => exact .pure _

theorem bmapGetSub_keeps {entp index : ℕ} {create : Bool} :
    (bmapGetSub dev entp index create).Keeps P :=
  (Keeps.assert _).bind fun _ => .ite
    ((rbuf_keeps hP).bind fun _ => .ite (.pure _) (bmapAddEntry_keeps hP))
    (.ite (.pure _) (hP.alloc.bind fun _ => bmapAddEntry_keeps hP))

theorem bmapGetOut_keeps : (bmapGetOut b).Keeps P :=
  .ite (.pure _) ((hP.inuse _).bind fun _ => .pure _)

theorem bmapGet_keeps {index : ℕ} {create : Bool} : (bmapGet dev j index create).Keeps P := by
  unfold bmapGet
  split
  · exact Keeps.get.bind fun _ => .ite
      (hP.alloc.bind fun _ => (Keeps.modify fun s => hP.setDin s j _).bind fun _ =>
        bmapGetOut_keeps hP)
      (bmapGetOut_keeps hP)
  · exact .ite (Keeps.get.bind fun _ => (bmapGetSub_keeps hP).bind fun _ => .ite
      ((Keeps.assert _).bind fun _ => (Keeps.modify fun s => hP.setDin s j _).bind fun _ =>
        bmapGetOut_keeps hP)
      (bmapGetOut_keeps hP)) fun _ _ _ _ h => (panic_eq_some.1 h).elim

theorem bmapLoad_keeps : (bmapLoad dev j k).Keeps P :=
  Keeps.get.bind fun _ => (Keeps.assert _).bind fun _ => (bmapGet_keeps hP).bind fun _ =>
    (hP.inuse _).bind fun _ =>
      .ite ((Keeps.modify fun s => hP.blocks s j).bind fun _ => .pure _) (.pure _)

theorem bmapTruncate_keeps : (bmapTruncate dev j).Keeps P := by
  refine Keeps.get.bind fun s => (Keeps.assert _).bind fun _ => Keeps.bind ?_ fun _ =>
    .modify fun s => hP.setDin s j _
  refine Keeps.get.bind fun _ => ?_
  split
  · exact .ite ((hP.free _).bind fun _ => .modify fun s => hP.setDin s j _) (.pure _)
  · exact .ite ((hP.inuse _).bind fun _ => (Keeps.assert _).bind fun _ =>
      (rbuf_keeps hP).bind fun _ => .ite ((wbuf_keeps hP).bind fun _ => hP.free _)
        (.pure _)) (.pure _)

theorem movePiece_keeps {write : Bool} {p : Piece} {buf : Bytes} {alen : ℕ} :
    (movePiece dev write p b buf alen).Keeps P := by
  unfold movePiece
  split
  · exact (hP.write _ _ _).bind fun _ => .pure _
  · exact (wbuf_keeps hP).bind fun _ => .pure _
  · exact (readBlock_keeps hP).bind fun _ => .pure _
  · exact (rbuf_keeps hP).bind fun _ => .pure _

theorem ioLoop_keeps {write : Bool} : ∀ {ps : List Piece} {buf : Bytes} {alen : ℕ},
    (ioLoop dev j write ps buf alen).Keeps P
  | [], _, _ => .pure _
  | p :: ps, buf, alen => by
    refine ((bmapLoad_keeps hP).attempt).bind fun r => ?_
    cases r with
    | error e => exact .pure _
    | ok b =>
      refine ((movePiece_keeps hP).attempt).bind fun r => ?_
      cases r with
      | error e => exact .pure _
      | ok buf' => exact ioLoop_keeps

theorem growLoop_keeps : ∀ {n nblks : ℕ}, (growLoop dev j nblks n).Keeps P
  | 0, _ => .pure _
  | _ + 1, _ => (bmapLoad_keeps hP).bind fun _ => growLoop_keeps

theorem shrinkLoop_keeps : ∀ {n : ℕ}, (shrinkLoop dev j n).Keeps P
  | 0 => .pure _
  | _ + 1 => (bmapTruncate_keeps hP).bind fun _ => shrinkLoop_keeps

theorem truncfile_keeps {len : ℤ} : (truncfile dev j len).Keeps P :=
  .ite (.throw _) (Keeps.get.bind fun _ => .ite (.assert _)
    (Keeps.bind (.ite (growLoop_keeps hP) (shrinkLoop_keeps hP)) fun _ => Keeps.get.bind fun _ =>
      (Keeps.assert _).bind fun _ => .modify fun s => hP.setDin s j _))

theorem tryseek_keeps {pos : ℤ} : (tryseek dev j pos).Keeps P :=
  .ite (.throw _) (Keeps.get.bind fun _ => .ite (truncfile_keeps hP) (.pure _))

theorem ioNolock_keeps {buf : Bytes} {offset : ℤ} {alen : ℕ} {write : Bool} :
    (ioNolock dev j buf offset alen write).Keeps P :=
  Keeps.get.bind fun _ => (Keeps.assert _).bind fun _ => .ite (.pure _) (.ite (.pure _)
    (.ite (.ite (.pure _) (ioLoop_keeps hP))
      ((ioLoop_keeps hP).bind fun _ => Keeps.get.bind fun _ =>
      .ite ((Keeps.modify fun s => hP.setDin s j _).bind fun _ => .pure _) (.pure _))))

end

/-- A block that has been freed leaves the inode dirty. -/
theorem bmapTruncate_marks {s t : Sfs} (hr : bmapTruncate dev i s = some (.ok (), t)) :
    t.Dirty i := by
  rw [bmapTruncate, Code.get_bind_eq_some, Code.assert_bind_eq_some] at hr
  obtain ⟨a, v, -, hr⟩ | ⟨e, -, he⟩ := Code.bind_eq_some.1 hr.2
  · obtain ⟨-, rfl⟩ := Code.modify_eq_some.1 hr
    rw [Sfs.Dirty, Sfs.setDin, Sfs.sin_setSin, if_pos rfl]
  · cases he

/-! ## When an added block sets `dirty` -/

/-- To add block `k` an empty slot of the inode is written. -/
def Sfs.Marks (s : Sfs) (i k : ℕ) : Prop :=
  if h : k < 12 then (s.din i).direct ⟨k, h⟩ = 0 else (s.din i).indirect = 0

/-- Of the blocks that make the file one of `n` blocks, one is added to an empty slot of the inode,
    or the inode is dirty before. -/
def Sfs.Marked (s : Sfs) (i n : ℕ) : Prop :=
  (s.din i).blocks < n → (s.sin i).dirty = true ∨ ∃ k < n, (s.din i).blocks ≤ k ∧ s.Marks i k

instance (s : Sfs) (i k : ℕ) : Decidable (s.Marks i k) := by
  unfold Sfs.Marks
  infer_instance

instance (s : Sfs) (i n : ℕ) : Decidable (s.Marked i n) := by
  unfold Sfs.Marked
  infer_instance

/-- Only file `i` differs, and its inode not without being dirty. -/
structure Touched (I : Finset ℕ) (i : ℕ) (s t : Sfs) : Prop extends Beside I i s t where
  clean : (t.sin i).dirty = false → t.sin i = s.sin i
  size : (t.din i).size < 2 ^ 32
  blocks : (t.din i).blocks < 2 ^ 32

variable {I : Finset ℕ} {E E' : Set ℕ} {s t v : Sfs}

theorem Touched.refl (hs : (s.din i).size < 2 ^ 32) (hb : (s.din i).blocks < 2 ^ 32) :
    Touched I i s s := ⟨.refl s, fun _ => rfl, hs, hb⟩

/-- Only file `i` differs, and its size and its number of blocks are words. -/
structure Fitting (I : Finset ℕ) (i : ℕ) (s t : Sfs) : Prop extends Beside I i s t where
  size : (t.din i).size < 2 ^ 32
  blocks : (t.din i).blocks < 2 ^ 32

theorem Fitting.refl (hs : (s.din i).size < 2 ^ 32) (hb : (s.din i).blocks < 2 ^ 32) :
    Fitting I i s s := ⟨.refl s, hs, hb⟩

/-- The size is set. -/
theorem Beside.fitting (h : Beside I i s t) (hb : (t.din i).blocks < 2 ^ 32) {n : ℕ}
    (hn : n ≤ sfsMaxFileSize) : Fitting I i s (t.setDin i fun din => { din with size := n }) where
  toBeside := h.setSin rfl
  size := by
    rw [Sfs.din_setDin, if_pos rfl]
    exact lt_of_le_of_lt hn (by decide)
  blocks := by
    rw [Sfs.din_setDin, if_pos rfl]
    exact hb

theorem Fitting.touched (h : Fitting I i s t) (hc : (t.sin i).dirty = false → t.sin i = s.sin i) :
    Touched I i s t := ⟨h.toBeside, hc, h.size, h.blocks⟩

/-- What sets the size sets `dirty`. -/
theorem Sfs.dirty_setDin {f : DiskInode → DiskInode} : (t.setDin i f).Dirty i := by
  rw [Sfs.Dirty, Sfs.setDin, Sfs.sin_setSin, if_pos rfl]

/-- The slots of an inode that is not dirty are those on the disk: none of them has been written. -/
theorem Sfs.Marked.clean (hm : s.Marked i (v.din i).blocks) (h : Acct I E s)
    (hc : s.cached i = true) (hv : Acct I E' v) (hw : Whole I v) (hx : Extended I i s v)
    (hd : s.Dirty i → v.Dirty i) (hcl : (v.sin i).dirty = false) : v.sin i = s.sin i := by
  have hi := h.cached i hc
  have hcv : v.cached i = true := by rw [hx.cached, hc]
  have hsd : (s.sin i).dirty ≠ true := fun e => by
    have := hd e
    rw [Sfs.Dirty, hcl] at this
    cases this
  refine hx.same (le_antisymm (not_lt.1 fun hlt => ?_) hx.le)
  obtain hs | ⟨k, hkn, -, hk⟩ := hm hlt
  · exact hsd hs
  · obtain ⟨hdir, hind, -⟩ := h.clean i hc (by simpa using hsd)
    obtain ⟨hdir', hind', -⟩ := hv.clean i hcv hcl
    rw [hx.disk i hi] at hdir' hind'
    have hmap := hw i hi
    rw [Acct.dinOf_of_cached hcv] at hmap
    unfold Sfs.Marks at hk
    split at hk
    · rename_i h12
      refine hmap k (by omega) hkn ?_
      rw [Sfs.bmap, Acct.dinOf_of_cached hcv, DiskInode.entry, dif_pos h12, ← hdir', hdir, hk]
    · rename_i h12
      refine hmap 12 (by omega) (by omega) ?_
      rw [Sfs.bmap, Acct.dinOf_of_cached hcv, DiskInode.entry, dif_neg (by omega), ← hind', hind,
        hk, if_pos rfl]

/-! ## Reading and writing -/

/-- `endpos` of `sfs_io_nolock` behind its checks. -/
def ioEnd (s : Sfs) (i : ℕ) (offset : ℤ) (alen : ℕ) (write : Bool) : ℤ :=
  if write = false ∧ ((s.din i).size : ℤ) < writeEnd offset alen then (s.din i).size
  else writeEnd offset alen

/-- A transfer that is left after the checks and adds blocks is a write beyond the size, or marks
    the inode. -/
def MarksIo (dev : Device) (i : ℕ) (buf : Bytes) (offset : ℤ) (alen : ℕ) (write : Bool) (s : Sfs) :
    Prop :=
  0 ≤ offset → offset < sfsMaxFileSize → offset < ioEnd s i offset alen write →
    match ioLoop dev i write
      (ioPieces offset.toNat (ioEnd s i offset alen write).toNat) buf 0 s with
    | some (.ok out, v) => s.Marked i (v.din i).blocks ∨
        write = true ∧ (s.din i).size < offset.toNat + out.alen
    | _ => True

/-- The loop returns, and has moved no more bytes than there are in the range. -/
theorem ioLoop_alen {write : Bool} : ∀ {ps : List Piece} {buf : Bytes} {alen a c : ℕ} {s : Sfs},
    Tiles a ps c → ∀ {r : Except Errno IoResult}, ioLoop dev i write ps buf alen s = some (r, t) →
      ∃ out, r = .ok out ∧ a + out.alen ≤ c + alen
  | [], buf, alen, a, c, s, ht, r, hr => by
    obtain ⟨rfl, -⟩ := Code.pure_eq_some.1 hr
    exact ⟨_, rfl, by rw [show a = c from ht]⟩
  | p :: ps, buf, alen, a, c, s, ht, r, hr => by
    obtain ⟨-, -, ht'⟩ := ht
    have hle := ht'.le
    rw [ioLoop, Code.attempt_bind_eq_some] at hr
    obtain ⟨_ | b, v, -, hr⟩ := hr
    · obtain ⟨rfl, -⟩ := Code.pure_eq_some.1 hr
      exact ⟨_, rfl, by dsimp only; omega⟩
    · rw [Code.attempt_bind_eq_some] at hr
      obtain ⟨_ | buf', w, -, hr⟩ := hr
      · obtain ⟨rfl, -⟩ := Code.pure_eq_some.1 hr
        exact ⟨_, rfl, by dsimp only; omega⟩
      · obtain ⟨out, rfl, ho⟩ := ioLoop_alen ht' hr
        exact ⟨out, rfl, by omega⟩

/-- What `sfs_io_nolock` does: nothing, or the loop, and the size is set if it is now larger. -/
theorem ioNolock_cases {buf : Bytes} {offset : ℤ} {alen : ℕ} {write : Bool}
    {r : Except Errno IoResult} (hr : ioNolock dev i buf offset alen write s = some (r, t)) :
    t = s ∨ 0 ≤ offset ∧ offset < sfsMaxFileSize ∧ offset < ioEnd s i offset alen write ∧
      ioEnd s i offset alen write ≤ sfsMaxFileSize ∧ ∃ r₁ v,
        ioLoop dev i write (ioPieces offset.toNat (ioEnd s i offset alen write).toNat) buf 0 s =
          some (r₁, v) ∧ ((t = v ∧ ∀ out, r₁ = .ok out → write = true →
              ¬(v.din i).size < offset.toNat + out.alen) ∨
            ∃ out, r₁ = .ok out ∧ write = true ∧
              t = v.setDin i fun din => { din with size := offset.toNat + out.alen }) := by
  simp only [ioNolock, Code.get_bind_eq_some, Code.assert_bind_eq_some] at hr
  obtain ⟨-, hr⟩ := hr
  split at hr
  · exact .inl (Code.pure_eq_some.1 hr).2
  · rename_i hchk
    simp only [not_or, not_lt, not_le] at hchk
    obtain ⟨h0, hmax, hend⟩ := hchk
    split at hr
    · exact .inl (Code.pure_eq_some.1 hr).2
    · rename_i hne
      have hwe : offset < writeEnd offset alen ∧ writeEnd offset alen ≤ sfsMaxFileSize := by
        unfold writeEnd
        split <;> omega
      split at hr
      · rename_i hwf
        split at hr
        · exact .inl (Code.pure_eq_some.1 hr).2
        · rename_i hsz
          change ioLoop dev i write (ioPieces offset.toNat (if ((s.din i).size : ℤ) <
            writeEnd offset alen then ((s.din i).size : ℤ) else writeEnd offset alen).toNat) buf 0 s
              = _ at hr
          have he : ioEnd s i offset alen write = if ((s.din i).size : ℤ) < writeEnd offset alen
              then ((s.din i).size : ℤ) else writeEnd offset alen := by
            simp only [ioEnd, hwf, true_and]
          rw [← he] at hr
          refine .inr ⟨h0, hmax, ?_, ?_, r, t, hr, .inl ⟨rfl, fun _ _ hwt => ?_⟩⟩
          · rw [he]
            split <;> omega
          · rw [he]
            split <;> omega
          · rw [hwf] at hwt
            cases hwt
      · rename_i hwf
        obtain rfl : write = true := by simpa using hwf
        change
          (ioLoop dev i true (ioPieces offset.toNat (writeEnd offset alen).toNat) buf 0 >>= _) s
          = _ at hr
        have he : ioEnd s i offset alen true = writeEnd offset alen := by simp [ioEnd]
        rw [he]
        refine .inr ⟨h0, hmax, hwe.1, hwe.2, ?_⟩
        obtain ⟨out, v, h₁, hr⟩ | ⟨e, h₁, -⟩ := Code.bind_eq_some.1 hr
        · refine ⟨_, v, h₁, ?_⟩
          rw [Code.get_bind_eq_some] at hr
          split at hr
          · rw [Code.modify_bind_eq_some] at hr
            exact .inr ⟨out, rfl, rfl, (Code.pure_eq_some.1 hr).2⟩
          · rename_i hsz
            refine .inl ⟨(Code.pure_eq_some.1 hr).2, fun out' e _ => ?_⟩
            cases e
            exact hsz
        · exact ⟨_, t, h₁, .inl ⟨rfl, fun _ e _ => nomatch e⟩⟩

theorem ioNolock_fitting {buf : Bytes} {offset : ℤ} {alen : ℕ} {write : Bool} (h : Acct I E s)
    (hc : s.cached i = true) (hs : (s.din i).size < 2 ^ 32) (hb : (s.din i).blocks < 2 ^ 32)
    {r : Except Errno IoResult} (hr : ioNolock dev i buf offset alen write s = some (r, t)) :
    Fitting I i s t := by
  obtain rfl | ⟨h0, -, hlt, hle, r₁, v, h₁, hr⟩ := ioNolock_cases hr
  · exact .refl hs hb
  · have hlt' : offset.toNat < (ioEnd s i offset alen write).toNat := by omega
    have ht := ioPieces_tiles hlt'
    obtain ⟨hx, hxb⟩ := ioLoop_extended ht h hc h₁
    obtain ⟨out, rfl, hal⟩ := ioLoop_alen ht h₁
    have hbv : (v.din i).blocks < 2 ^ 32 := by
      unfold sfsMaxFileSize at hle
      omega
    obtain ⟨rfl, -⟩ | ⟨out', he, -, rfl⟩ := hr
    · exact ⟨hx.toBeside, by rw [hx.size]; exact hs, hbv⟩
    · cases he
      exact hx.toBeside.fitting hbv (by omega)

/-- **`sfs_io_nolock`.** -/
theorem ioNolock_touched {buf : Bytes} {offset : ℤ} {alen : ℕ} {write : Bool} (h : Acct I E s)
    (hw : Whole I s) (hc : s.cached i = true) (hs : (s.din i).size < 2 ^ 32)
    (hb : (s.din i).blocks < 2 ^ 32) (hm : MarksIo dev i buf offset alen write s)
    {r : Except Errno IoResult} (hr : ioNolock dev i buf offset alen write s = some (r, t)) :
    Touched I i s t := by
  refine (ioNolock_fitting h hc hs hb hr).touched fun hcl => ?_
  obtain rfl | ⟨h0, hmax, hlt, -, r₁, v, h₁, hr⟩ := ioNolock_cases hr
  · rfl
  · have hlt' : offset.toNat < (ioEnd s i offset alen write).toNat := by omega
    have ht := ioPieces_tiles hlt'
    obtain ⟨hx, -⟩ := ioLoop_extended ht h hc h₁
    obtain ⟨out, rfl, -⟩ := ioLoop_alen ht h₁
    obtain ⟨rfl, hsz⟩ | ⟨out', he, -, rfl⟩ := hr
    · obtain ⟨⟨⟨E', -, -, hv⟩, hwv⟩, -⟩ := ioLoop_kept ht.pieces h hc h₁
      have hmk := hm h0 hmax hlt
      rw [h₁] at hmk
      obtain hmk | ⟨hwt, hgt⟩ := hmk
      · exact hmk.clean h hc hv (hwv hw) hx
          (fun hd => ioLoop_keeps Sfs.lasting_dirty.stable _ _ _ hd h₁) hcl
      · exact absurd (hx.size ▸ hgt) (hsz out rfl hwt)
    · exact absurd Sfs.dirty_setDin (by rw [Sfs.Dirty, hcl]; exact Bool.false_ne_true)

/-! ## Truncation -/

/-- A truncation that is left after the checks, and breaks off behind blocks that it has added,
    marks the inode. -/
def MarksTrunc (dev : Device) (i : ℕ) (len : ℤ) (s : Sfs) : Prop :=
  0 ≤ len → len ≤ sfsMaxFileSize → (s.din i).size ≠ len →
    (s.din i).blocks < (len.toNat + 4095) / 4096 →
      match growLoop dev i (s.din i).blocks ((len.toNat + 4095) / 4096 - (s.din i).blocks) s with
      | some (.error _, v) => s.Marked i (v.din i).blocks
      | _ => True

theorem growLoop_le : ∀ {n nblks : ℕ} {s : Sfs} {E : Set ℕ}, Acct I E s → s.cached i = true →
    ∀ {r : Except Errno Unit}, growLoop dev i nblks n s = some (r, t) →
      (t.din i).blocks ≤ max (s.din i).blocks (nblks + n)
  | 0, _, s, _, _, _, _, hr => by
    obtain ⟨-, rfl⟩ := Code.pure_eq_some.1 hr
    exact le_max_left _ _
  | n + 1, nblks, s, E, h, hc, r, hr => by
    obtain ⟨b, v, h₁, hr⟩ | ⟨e, h₁, -⟩ := Code.bind_eq_some.1 hr
    · obtain ⟨hx, ⟨E', ha⟩, -, ⟨b', -, hl⟩ | ⟨e, he, -⟩⟩ := bmapLoad_extended h hc h₁
      · have hle := growLoop_le ha (by rw [hx.cached, hc]) hr
        rw [hl.blocks] at hle
        omega
      · cases he
    · obtain ⟨-, -, -, ⟨b', he, -⟩ | ⟨e, -, hb⟩⟩ := bmapLoad_extended h hc h₁
      · cases he
      · omega

/-- Blocks are freed one by one, each with `dirty`. -/
theorem shrinkLoop_touched : ∀ {n : ℕ} {s : Sfs} {E : Set ℕ}, Acct I E s → s.cached i = true →
    (s.din i).size < 2 ^ 32 → (s.din i).blocks < 2 ^ 32 → ∀ {r : Except Errno Unit},
    shrinkLoop dev i n s = some (r, t) → Touched I i s t
  | 0, s, _, _, _, hs, hb, _, hr => by
    obtain ⟨-, rfl⟩ := Code.pure_eq_some.1 hr
    exact .refl hs hb
  | n + 1, s, E, h, hc, hs, hb, r, hr => by
    obtain ⟨a, v, h₁, hr⟩ | ⟨e, h₁, -⟩ := Code.bind_eq_some.1 hr
    · obtain ⟨-, ⟨-, hu, hbv⟩ | ⟨e, n, he, -⟩⟩ := bmapTruncate_spec h hc h₁
      · have htv := shrinkLoop_touched hu.acct (by rw [hu.cached, hc]) (by rw [hu.size]; exact hs)
          (by omega) hr
        refine ⟨(hu.beside h).trans htv.toBeside, fun hd => ?_, htv.size, htv.blocks⟩
        have hdt := shrinkLoop_keeps Sfs.lasting_dirty.stable v _ t (bmapTruncate_marks h₁) hr
        rw [Sfs.Dirty, hd] at hdt
        cases hdt
      · cases he
    · obtain ⟨-, ⟨he, -⟩ | ⟨e, n, -, -, rfl⟩⟩ := bmapTruncate_spec h hc h₁
      · cases he
      · exact ⟨(Beside.refl s).wait n, fun _ => rfl, hs, hb⟩

theorem resize_fitting {nblks tblks : ℕ} (h : Acct I E s) (hc : s.cached i = true)
    (hs : (s.din i).size < 2 ^ 32) (hb : (s.din i).blocks < 2 ^ 32) (ht : tblks < 2 ^ 32)
    {r : Except Errno Unit} (hr : resize dev i nblks tblks s = some (r, t)) :
    Fitting I i s t := by
  unfold resize at hr
  split at hr
  · have hx := growLoop_extended h hc hr
    have hle := growLoop_le h hc hr
    exact ⟨hx.toBeside, by rw [hx.size]; exact hs, by omega⟩
  · have hx := shrinkLoop_touched h hc hs hb hr
    exact ⟨hx.toBeside, hx.size, hx.blocks⟩

theorem truncfile_fitting {len : ℤ} (h : Acct I E s) (hc : s.cached i = true)
    (hs : (s.din i).size < 2 ^ 32) (hb : (s.din i).blocks < 2 ^ 32)
    {r : Except Errno Unit} (hr : truncfile dev i len s = some (r, t)) : Fitting I i s t := by
  unfold truncfile at hr
  split at hr
  · obtain ⟨-, rfl⟩ := Code.throw_eq_some.1 hr
    exact .refl hs hb
  · rename_i hlen
    simp only [not_or, not_lt] at hlen
    have hmax := hlen.2
    unfold sfsMaxFileSize at hmax
    rw [Code.get_bind_eq_some] at hr
    split at hr
    · obtain ⟨-, -, rfl⟩ := Code.assert_eq_some.1 hr
      exact .refl hs hb
    · obtain ⟨a, v, h₁, hr⟩ | ⟨e, h₁, -⟩ := Code.bind_eq_some.1 hr
      · rw [Code.get_bind_eq_some, Code.assert_bind_eq_some] at hr
        obtain ⟨hbv, -, rfl⟩ := hr.imp_right Code.modify_eq_some.1
        exact (resize_beside h hc h₁).fitting (by omega) (by omega)
      · exact resize_fitting h hc hs hb (by omega) h₁

/-- **`sfs_truncfile`.** -/
theorem truncfile_touched {len : ℤ} (h : Acct I E s) (hw : Whole I s) (hc : s.cached i = true)
    (hs : (s.din i).size < 2 ^ 32) (hb : (s.din i).blocks < 2 ^ 32) (hm : MarksTrunc dev i len s)
    {r : Except Errno Unit} (hr : truncfile dev i len s = some (r, t)) : Touched I i s t := by
  refine (truncfile_fitting h hc hs hb hr).touched fun hcl => ?_
  unfold truncfile at hr
  split at hr
  · obtain ⟨-, rfl⟩ := Code.throw_eq_some.1 hr
    rfl
  · rename_i hlen
    simp only [not_or, not_lt] at hlen
    rw [Code.get_bind_eq_some] at hr
    split at hr
    · obtain ⟨-, -, rfl⟩ := Code.assert_eq_some.1 hr
      rfl
    · rename_i hne
      obtain ⟨a, v, h₁, hr⟩ | ⟨e, h₁, -⟩ := Code.bind_eq_some.1 hr
      · rw [Code.get_bind_eq_some, Code.assert_bind_eq_some] at hr
        obtain ⟨-, -, rfl⟩ := hr.imp_right Code.modify_eq_some.1
        exact absurd Sfs.dirty_setDin (by rw [Sfs.Dirty, hcl]; exact Bool.false_ne_true)
      · unfold resize at h₁
        split at h₁
        · rename_i hlt
          have hmk := hm hlen.1 hlen.2 hne hlt
          rw [h₁] at hmk
          obtain ⟨⟨⟨E', -, -, hv⟩, hwv⟩, -⟩ := growLoop_kept h hc h₁
          exact Sfs.Marked.clean hmk h hc hv (hwv hw) (growLoop_extended h hc h₁)
            (fun hd => growLoop_keeps Sfs.lasting_dirty.stable _ _ _ hd h₁) hcl
        · exact (shrinkLoop_touched h hc hs hb h₁).clean hcl

end

end Ucore
