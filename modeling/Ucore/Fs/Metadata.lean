/-
  The superblock and the free map: in memory, and on the disk.

  * `Sfs.SuperStored`, `Sfs.FreemapStored`: those on the disk are those in memory;
  * `MetaKept`: the two are as before, or `super_dirty` is set, and nothing has been written to
    their blocks;
  * `step_meta`: so it is after every call on a file;
  * `mountedSfs_stored`: at first they are those on the disk.
-/
import Ucore.Fs.CleanInode
import Ucore.Fs.MountSpec

namespace Ucore

/-- What `bitmap_getdata` points to. -/
def Bitmap.bytes (bm : Bitmap) : Bytes := Bytes.ofWords bm.map

namespace Sfs

/-- `sfs->super`; `m` has the fields that do not change. -/
def super (s : Sfs) (m : SfsSuper) : SfsSuper :=
  { m with blocks := s.blocks, unusedBlocks := s.unusedBlocks }

def SuperStored (s : Sfs) (m : SfsSuper) : Prop :=
  ∀ q < 44, s.disk sfsBlknSuper q = (s.super m).bytes q

def FreemapStored (s : Sfs) : Prop :=
  ∀ k < s.freemapBlocks, ∀ q < 4096,
    s.disk (sfsBlknFreemap + k) q = s.freemap.bytes (4096 * k + q)

/-- The inode on the disk is that in memory. -/
def InodeStored (s : Sfs) (i : ℕ) : Prop := ∀ q < 64, s.disk i q = (s.din i).bytes q

/-- Block `b` is one of the free map. -/
def InFreemap (s : Sfs) (b : ℕ) : Prop :=
  sfsBlknFreemap ≤ b ∧ b < sfsBlknFreemap + s.freemapBlocks

end Sfs

/-- The superblock on the disk is as before, and the one in memory is, with the free map, unless
    `super_dirty` is set. -/
structure Flagged (s t : Sfs) : Prop where
  geo : t.Geometry
  disk : t.disk sfsBlknSuper = s.disk sfsBlknSuper
  clean : t.superDirty = false →
    s.superDirty = false ∧ t.unusedBlocks = s.unusedBlocks ∧ t.freemap = s.freemap

structure MetaKept (s t : Sfs) : Prop extends Flagged s t where
  blocks : t.blocks = s.blocks
  map : ∀ b, s.InFreemap b → t.disk b = s.disk b

/-- **A file system that has been mounted** has its superblock and its free map on the disk, if the
    text in the superblock is terminated. -/
theorem mountedSfs_stored {d : BlockDev} (hz : d.data sfsBlknSuper 43 = 0) (n : ℕ) :
    (mountedSfs d.super.endInfo d.freemap d.data n).SuperStored d.super.endInfo ∧
      (mountedSfs d.super.endInfo d.freemap d.data n).FreemapStored := by
  have hend : d.super.endInfo = d.super := by
    have h31 : d.super.info 31 = 0 := hz
    unfold SfsSuper.endInfo
    rw [← h31, Function.update_eq_self]
  refine ⟨fun q hq => ?_, fun k hk q hq => ?_⟩
  · rw [hend]
    exact (SfsSuper.bytes_ofBytes _ hq).symm
  · have hk' : k < d.super.freemapBlocks := hk
    have h1 : (4096 * k + q) / 4 / 1024 = k := by omega
    have h2 : (4096 * k + q) / 4 % 1024 = q / 4 := by omega
    have h3 : (4096 * k + q) % 4 = q % 4 := by omega
    change d.data (sfsBlknFreemap + k) q = Bytes.ofWords d.freemap.map (4096 * k + q)
    have hmap : d.freemap.map ((4096 * k + q) / 4) =
        BitVec.ofNat 32 ((d.data (sfsBlknFreemap + k)).word 4 (4 * (q / 4))) := by
      refine (if_pos ⟨Nat.zero_le _, ?hlt⟩).trans ?_
      · rw [h1, h2, Nat.sub_zero]
      · rw [h1, Nat.zero_add]
        exact hk'
    have hlt : (d.data (sfsBlknFreemap + k)).word 4 (4 * (q / 4)) < 2 ^ 32 := Bytes.word_lt 4 _
    rw [Bytes.ofWords, hmap, h3, BitVec.toNat_ofNat, Nat.mod_eq_of_lt hlt,
      Bytes.ofWord_word 4 _ (Nat.mod_lt q (by omega)), Nat.div_add_mod]

section
variable {dev : Device} {I : Finset ℕ} {E : Set ℕ} {s t u : Sfs} {i k b n : ℕ}

/-! ## The superblock -/

namespace Flagged

theorem refl (h : s.Geometry) : Flagged s s := ⟨h, rfl, fun hc => ⟨hc, rfl, rfl⟩⟩

theorem trans (h : Flagged s t) (h' : Flagged t u) : Flagged s u := by
  refine ⟨h'.geo, h'.disk.trans h.disk, fun hc => ?_⟩
  obtain ⟨h1, h2, h3⟩ := h'.clean hc
  obtain ⟨g1, g2, g3⟩ := h.clean h1
  exact ⟨g1, h2.trans g2, h3.trans g3⟩

theorem setBlock (h : Flagged s t) (m : Bytes) (hb : b ≠ 0) : Flagged s (t.setBlock b m) :=
  ⟨h.geo.congr rfl rfl, (Sfs.disk_setBlock m).trans ((if_neg hb.symm).trans h.disk), h.clean⟩

theorem take (h : Flagged s t) (hb : t.Free b) : Flagged s (t.take b) :=
  ⟨h.geo.take hb, h.disk, fun hc => by cases hc⟩

theorem give (h : Flagged s t) (hb : t.Used b) : Flagged s (t.give b) :=
  ⟨h.geo.give hb, h.disk, fun hc => by cases hc⟩

theorem wait (h : Flagged s t) (n : ℕ) : Flagged s (t.wait n) :=
  ⟨h.geo.congr rfl rfl, h.disk, h.clean⟩

theorem setSin (h : Flagged s t) (f : SfsInode → SfsInode) : Flagged s (t.setSin i f) :=
  ⟨h.geo.congr rfl rfl, h.disk, h.clean⟩

end Flagged

/-- A block that is read or written with a check is not the superblock. -/
theorem writeBlock_ne_zero {req : Request} {buf : Bytes} {r : Except Errno Unit}
    (hr : writeBlock dev req buf b s = some (r, t)) : b ≠ 0 := by
  simp only [writeBlock, checkBlkno, bind_assoc, Code.get_bind_eq_some,
    Code.assert_bind_eq_some] at hr
  exact hr.1.1

theorem Flagged.stable : Sfs.Stable dev (Flagged s) where
  wait _ n h := h.wait n
  write _ _ _ t r u h hr := by
    obtain ⟨-, rfl⟩ | ⟨e, -, -, rfl⟩ := writeBlock_eq_some hr
    · exact (h.wait 1).setBlock _ (writeBlock_ne_zero hr)
    · exact h.wait 1
  inuse _ t r u h hr := by
    obtain ⟨-, -, rfl⟩ := (assertInuse_iff h.geo.bits).1 hr
    exact h
  alloc t r u h hr := by
    obtain ⟨b, -, hb, rfl⟩ | ⟨b, e, -, hb, -, rfl⟩ | ⟨-, rfl, -⟩ := blockAlloc_eq_some h.geo hr
    · exact ((h.take hb).wait 1).setBlock _ hb.1
    · exact (h.take hb).wait 1
    · exact h
  free _ t r u h hr := by
    obtain ⟨hb, -, rfl⟩ := (blockFree_iff h.geo.bits).1 hr
    exact h.give hb
  setDin _ _ _ h := h.setSin _
  blocks _ _ h := h.setSin _

/-! ## The blocks of the free map -/

namespace Acct

theorem freemap_slot (hb : s.InFreemap b) : s.slot I (.freemap b) = b := if_pos hb

theorem freemap_used (h : Acct I E s) (hb : s.InFreemap b) : s.Used b := by
  have := h.ledger.marked (.freemap b)
  rw [freemap_slot hb] at this
  refine this ?_
  rintro rfl
  exact absurd hb.1 (by decide)

theorem inode_ne_freemap (h : Acct I E s) (hb : s.InFreemap b) (hi : i ∈ I) : b ≠ i := by
  intro e
  have := h.ledger.once (.freemap b) (.inode i)
  rw [freemap_slot hb, slot_inode hi] at this
  cases this (h.freemap_used hb).1 e

theorem indirect_ne_freemap (h : Acct I E s) (hb : s.InFreemap b) (hi : i ∈ I) :
    (s.dinOf i).indirect ≠ b := by
  intro e
  have := h.ledger.once (.freemap b) (.indirect i)
  rw [freemap_slot hb, slot_indirect hi] at this
  cases this (h.freemap_used hb).1 e.symm

theorem data_ne_freemap (h : Acct I E s) (hb : s.InFreemap b) (hi : i ∈ I) (hk : k < 1036) :
    b ≠ s.bmap i k := by
  intro e
  have := h.ledger.once (.freemap b) (.data i k)
  rw [freemap_slot hb, slot_data hi hk] at this
  cases this (h.freemap_used hb).1 e

end Acct

namespace MetaKept

theorem refl (h : s.Geometry) : MetaKept s s := ⟨.refl h, rfl, fun _ _ => rfl⟩

theorem trans (h : MetaKept s t) (h' : MetaKept t u) : MetaKept s u := by
  refine ⟨h.toFlagged.trans h'.toFlagged, h'.blocks.trans h.blocks, fun b hb => ?_⟩
  have ht : t.freemapBlocks = s.freemapBlocks := congrArg (fun n => (n + 32767) / 32768) h.blocks
  rw [h'.map b (by rwa [Sfs.InFreemap, ht]), h.map b hb]

theorem wait (h : MetaKept s t) (n : ℕ) : MetaKept s (t.wait n) :=
  ⟨h.toFlagged.wait n, h.blocks, h.map⟩

theorem setSin (h : MetaKept s t) (f : SfsInode → SfsInode) : MetaKept s (t.setSin i f) :=
  ⟨h.toFlagged.setSin f, h.blocks, h.map⟩

/-- A block that is not one of the two is written. -/
theorem setBlock (h : MetaKept s t) (m : Bytes) (hb : b ≠ 0) (hn : ∀ c, s.InFreemap c → c ≠ b) :
    MetaKept s (t.setBlock b m) :=
  ⟨h.toFlagged.setBlock m hb, h.blocks, fun c hc => by
    rw [Sfs.disk_setBlock, if_neg (hn c hc), h.map c hc]⟩

end MetaKept

/-! ## Calls -/

theorem bmapLoad_meta (h : Acct I E s) (hc : s.cached i = true) {r : Except Errno ℕ}
    (hr : bmapLoad dev i k s = some (r, t)) : MetaKept s t := by
  have hfl := bmapLoad_keeps Flagged.stable _ _ _ (.refl h.geo) hr
  obtain ⟨-, -, ⟨b, -, hl⟩ | ⟨e, -, hf, -⟩⟩ := bmapLoad_spec h hc hr
  · exact ⟨hfl, hl.mapped.blocks, fun b hb => hl.mapped.disk b (h.freemap_used hb) fun j hj =>
      h.indirect_ne_freemap hb hj⟩
  · exact ⟨hfl, hf.same.blocks, fun b hb => hf.same.disk b (h.freemap_used hb)⟩

theorem bmapTruncate_meta (h : Acct I E s) (hc : s.cached i = true) {r : Except Errno Unit}
    (hr : bmapTruncate dev i s = some (r, t)) : MetaKept s t := by
  have hfl := bmapTruncate_keeps Flagged.stable _ _ _ (.refl h.geo) hr
  obtain ⟨-, ⟨-, hu, -⟩ | ⟨e, n, -, -, rfl⟩⟩ := bmapTruncate_spec h hc hr
  · exact ⟨hfl, hu.blocks, fun b hb => hu.disk b (h.freemap_used hb) fun j hj =>
      h.indirect_ne_freemap hb hj⟩
  · exact ⟨hfl, rfl, fun _ _ => rfl⟩

theorem movePiece_meta {write : Bool} {p : Piece} {buf : Bytes} {alen : ℕ} (h : Acct I E s)
    (hi : i ∈ I) (hk : k < 1036) (h0 : s.bmap i k ≠ 0)
    (hwh : p.whole = true → p.blkoff = 0 ∧ p.size = 4096) {r : Except Errno Bytes}
    (hr : movePiece dev write p (s.bmap i k) buf alen s = some (r, t)) : MetaKept s t := by
  have hs := MetaKept.refl h.geo
  obtain ⟨n, -, rfl, -⟩ | ⟨n, m, -, -, rfl, -⟩ | ⟨e, n, -, -, rfl⟩ := movePiece_spec hwh hr
  · exact hs.wait n
  · exact (hs.wait n).setBlock m h0 fun c hc => h.data_ne_freemap hc hi hk
  · exact hs.wait n

theorem ioLoop_meta {write : Bool} : ∀ {ps : List Piece} {buf : Bytes} {alen : ℕ} {s : Sfs}
    {E : Set ℕ}, PiecesOk ps → Acct I E s → s.cached i = true →
    ∀ {r : Except Errno IoResult}, ioLoop dev i write ps buf alen s = some (r, t) → MetaKept s t
  | [], _, _, s, _, _, h, _, r, hr => by
    obtain ⟨-, rfl⟩ := Code.pure_eq_some.1 hr
    exact .refl h.geo
  | p :: ps, _, _, s, E, hp, h, hc, r, hr => by
    have hi := h.cached i hc
    have hps : PiecesOk ps := fun q hq => hp q (by simp [hq])
    obtain ⟨-, ⟨e, h₁, -⟩ | ⟨b, v, r₂, w, h₁, h₂, hx, -, ⟨E', ha⟩, hw⟩⟩ :=
      ioLoop_cons h hc (hp p (by simp)) hr
    · exact bmapLoad_meta h hc h₁
    · have hl : Loaded I E s v i p.blkno b := by
        obtain ⟨-, -, ⟨b', hb', hl⟩ | ⟨e, he, -⟩⟩ := bmapLoad_spec h hc h₁
        · cases hb'
          exact hl
        · cases he
      have hk := (bmapLoad_spec h hc h₁).2.1
      have hb : v.bmap i p.blkno = b := by rw [hl.mapped.bmap i hi _ hk, if_pos ⟨rfl, rfl⟩]
      have hsw : MetaKept s w := (bmapLoad_meta h hc h₁).trans <|
        movePiece_meta hl.acct hi hk (by rw [hb]; exact hl.mapped.ne_zero) (hp p (by simp))
          (by rw [hb]; exact h₂)
      obtain ⟨e, -, rfl, -⟩ | ⟨buf', -, hw⟩ := hw
      · exact hsw
      · exact hsw.trans (ioLoop_meta hps ha (by rw [hx.cached, hc]) hw)

theorem ioNolock_meta {buf : Bytes} {offset : ℤ} {alen : ℕ} {write : Bool} (h : Acct I E s)
    (hc : s.cached i = true) {r : Except Errno IoResult}
    (hr : ioNolock dev i buf offset alen write s = some (r, t)) : MetaKept s t := by
  obtain rfl | ⟨h0, -, hlt, -, r₁, v, h₁, ht⟩ := ioNolock_cases hr
  · exact .refl h.geo
  · have hv := ioLoop_meta (ioPieces_tiles (by omega)).pieces h hc h₁
    obtain ⟨rfl, -⟩ | ⟨out, -, -, rfl⟩ := ht
    · exact hv
    · exact hv.setSin _

theorem growLoop_meta : ∀ {n nblks : ℕ} {s : Sfs} {E : Set ℕ}, Acct I E s → s.cached i = true →
    ∀ {r : Except Errno Unit}, growLoop dev i nblks n s = some (r, t) → MetaKept s t
  | 0, _, s, _, h, _, r, hr => by
    obtain ⟨-, rfl⟩ := Code.pure_eq_some.1 hr
    exact .refl h.geo
  | n + 1, _, s, E, h, hc, r, hr => by
    obtain ⟨b, v, h₁, hr⟩ | ⟨e, h₁, -⟩ := Code.bind_eq_some.1 hr
    · obtain ⟨hk, hcv⟩ := bmapLoad_kept h hc h₁
      obtain ⟨E', -, -, ha⟩ := hk.acct
      exact (bmapLoad_meta h hc h₁).trans (growLoop_meta ha (by rw [hcv, hc]) hr)
    · exact bmapLoad_meta h hc h₁

theorem shrinkLoop_meta : ∀ {n : ℕ} {s : Sfs} {E : Set ℕ}, Acct I E s → s.cached i = true →
    ∀ {r : Except Errno Unit}, shrinkLoop dev i n s = some (r, t) → MetaKept s t
  | 0, s, _, h, _, r, hr => by
    obtain ⟨-, rfl⟩ := Code.pure_eq_some.1 hr
    exact .refl h.geo
  | n + 1, s, E, h, hc, r, hr => by
    obtain ⟨a, v, h₁, hr⟩ | ⟨e, h₁, -⟩ := Code.bind_eq_some.1 hr
    · obtain ⟨hk, hcv⟩ := bmapTruncate_kept h hc h₁
      obtain ⟨E', -, -, ha⟩ := hk.acct
      exact (bmapTruncate_meta h hc h₁).trans (shrinkLoop_meta ha (by rw [hcv, hc]) hr)
    · exact bmapTruncate_meta h hc h₁

theorem truncfile_meta {len : ℤ} (h : Acct I E s) (hc : s.cached i = true)
    {r : Except Errno Unit} (hr : truncfile dev i len s = some (r, t)) : MetaKept s t := by
  have hres : ∀ {nblks tblks : ℕ} {r : Except Errno Unit} {v : Sfs},
      resize dev i nblks tblks s = some (r, v) → MetaKept s v := fun {nblks tblks r v} hv => by
    unfold resize at hv
    split at hv
    · exact growLoop_meta h hc hv
    · exact shrinkLoop_meta h hc hv
  unfold truncfile at hr
  split at hr
  · obtain ⟨-, rfl⟩ := Code.throw_eq_some.1 hr
    exact .refl h.geo
  · rw [Code.get_bind_eq_some] at hr
    split at hr
    · obtain ⟨-, -, rfl⟩ := Code.assert_eq_some.1 hr
      exact .refl h.geo
    · obtain ⟨a, v, h₁, hr⟩ | ⟨e, h₁, -⟩ := Code.bind_eq_some.1 hr
      · rw [Code.get_bind_eq_some, Code.assert_bind_eq_some] at hr
        obtain ⟨-, -, rfl⟩ := hr.imp_right Code.modify_eq_some.1
        exact (hres h₁).setSin _
      · exact hres h₁

theorem tryseek_meta {pos : ℤ} (h : Acct I E s) (hc : s.cached i = true)
    {r : Except Errno Unit} (hr : tryseek dev i pos s = some (r, t)) : MetaKept s t := by
  unfold tryseek at hr
  split at hr
  · obtain ⟨-, rfl⟩ := Code.throw_eq_some.1 hr
    exact .refl h.geo
  · rw [Code.get_bind_eq_some] at hr
    split at hr
    · exact truncfile_meta h hc hr
    · obtain ⟨-, rfl⟩ := Code.pure_eq_some.1 hr
      exact .refl h.geo

theorem fsync_meta (h : Acct I E s) (hc : s.cached i = true) {r : Except Errno Unit}
    (hr : fsync dev i s = some (r, t)) : MetaKept s t := by
  have hi := h.cached i hc
  obtain ⟨-, rfl⟩ | ⟨n, rfl, -⟩ := fsync_cases hr
  · exact (((MetaKept.refl h.geo).setSin _).setBlock _ (h.inode_ne_zero hi) fun c hb =>
      h.inode_ne_freemap hb hi).wait 2
  · exact (MetaKept.refl h.geo).wait n

theorem loadInode_meta (h : Acct I E s) {r : Except Errno Unit}
    (hr : loadInode dev i s = some (r, t)) : MetaKept s t := by
  have hs := MetaKept.refl h.geo
  obtain ⟨-, rfl⟩ | ⟨-, -, rfl⟩ | ⟨n, rfl⟩ := loadInode_cases h.geo hr
  · exact hs.setSin _
  · exact ⟨⟨h.geo.congr rfl rfl, rfl, fun hd => ⟨hd, rfl, rfl⟩⟩, rfl, fun _ _ => rfl⟩
  · exact hs.wait n

theorem reclaim_meta (h : Acct I E s) (hc : s.cached i = true) {r : Except Errno Unit}
    (hr : reclaim dev i s = some (r, t)) : MetaKept s t := by
  have hk : Kept dev I E s (s.setSin i fun sin =>
      { sin with reclaimCount := sin.reclaimCount - 1 }) :=
    h.setSin_kept hc rfl rfl rfl rfl id
  obtain ⟨E', -, -, ha⟩ := hk.acct
  have hs := (MetaKept.refl h.geo).setSin (i := i) fun sin =>
    { sin with reclaimCount := sin.reclaimCount - 1 }
  obtain rfl | ⟨v, r', hv, rfl | ⟨-, rfl⟩⟩ := reclaim_cases h hc hr
  · exact hs
  · exact hs.trans (fsync_meta ha hc hv)
  · have hv' := hs.trans (fsync_meta ha hc hv)
    exact ⟨⟨hv'.geo.congr rfl rfl, hv'.disk, hv'.clean⟩, hv'.blocks, hv'.map⟩

/-- **One call.** -/
theorem step_meta (h : Acct I E s) {op : FileOp} (hl : op.Legal I s)
    (hs : op.step dev s = some t) : MetaKept s t := by
  cases op with
  | hold i =>
    cases hs
    exact (MetaKept.refl h.geo).setSin _
  | release i =>
    cases hs
    exact (MetaKept.refl h.geo).setSin _
  | loadInode i =>
    obtain ⟨r, hr⟩ := map_snd_eq_some hs
    exact loadInode_meta h hr
  | reclaim i =>
    obtain ⟨r, hr⟩ := map_snd_eq_some hs
    exact reclaim_meta h hl hr
  | bmapLoad i k =>
    obtain ⟨r, hr⟩ := map_snd_eq_some hs
    exact bmapLoad_meta h hl hr
  | bmapTruncate i =>
    obtain ⟨r, hr⟩ := map_snd_eq_some hs
    exact bmapTruncate_meta h hl hr
  | io i buf offset alen write =>
    obtain ⟨r, hr⟩ := map_snd_eq_some hs
    exact ioNolock_meta h hl hr
  | truncfile i len =>
    obtain ⟨r, hr⟩ := map_snd_eq_some hs
    exact truncfile_meta h hl hr
  | tryseek i pos =>
    obtain ⟨r, hr⟩ := map_snd_eq_some hs
    exact tryseek_meta h hl hr
  | fsync i =>
    obtain ⟨r, hr⟩ := map_snd_eq_some hs
    exact fsync_meta h hl hr

end

end Ucore
