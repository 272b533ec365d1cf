/-
  What `sfs_do_mount` checks of an image, and what it leaves to the image.

  * `SoundImage`: there are blocks, but not too many for the bits; the superblock has the number of
    the free bits, and no block with a free bit is the superblock, the root directory or one of the
    free map, or beyond the end;
  * `mount_validates`: `sfs_do_mount` returns an error with its memory released, or a file system on
    which blocks can be allocated and freed, if and only if the image is sound where it is read;
  * `mount_miscounted_panics`: it panics if the superblock counts the free blocks wrong.
-/
import Ucore.Fs.MountSpec
import Ucore.Lib.Machine

namespace Ucore

/-! ## Allocating and freeing -/

/-- The superblock, the root directory, a block of the free map. -/
def Sfs.Reserved (s : Sfs) (b : ℕ) : Prop :=
  b = sfsBlknSuper ∨ b = sfsBlknRoot ∨
    sfsBlknFreemap ≤ b ∧ b < sfsBlknFreemap + (s.blocks + 32767) / 32768

inductive SpaceOp where
  | alloc
  | free (b : ℕ)

/-- Blocks are allocated, and blocks that are in use and not reserved are freed. -/
def spaceMachine (dev : Device) (m : Sfs) : Machine Sfs SpaceOp where
  Init s := s = m
  Legal s
    | .alloc => True
    | .free b => s.Used b ∧ ¬s.Reserved b
  step s
    | .alloc => (blockAlloc dev s).map Prod.snd
    | .free b => (blockFree b s).map Prod.snd

/-- The number of free blocks is right, and `sfs_block_alloc` returns; a block that it returns is
    one of the file system, and not reserved. -/
def AllocSound (dev : Device) (s : Sfs) : Prop :=
  s.unusedBlocks = s.freemap.freeBits.card ∧ ∃ r t, blockAlloc dev s = some (r, t) ∧
    ∀ b, r = .ok b → 0 < b ∧ b < s.blocks ∧ ¬s.Reserved b

/-- `sfs_do_mount` returns, with an error and nothing allocated, or with a file system on which
    allocation goes well from then on. -/
def MountSound (d : BlockDev) (s : MountState) : Prop :=
  match doMount d s with
  | none => False
  | some (.error _, t) => t.heap = s.heap
  | some (.ok (_, m), _) => ∀ dev u, (spaceMachine dev m).Reach u → AllocSound dev u

/-- What has to hold of the image as far as `sfs_do_mount` reads it from time `t` on. -/
def SoundImage (d : BlockDev) (t : ℕ) : Prop :=
  d.Checked t → (0 < d.super.blocks ∧ d.super.blocks ≤ 2 ^ 32 - 32768) ∧
    (d.Loads t → d.super.unusedBlocks = d.freemap.freeBits.card ∧
      ∀ b < d.super.freemapBits, d.freemap.bit b = true →
        sfsBlknFreemap + d.super.freemapBlocks ≤ b ∧ b < d.super.blocks)

section
variable {d : BlockDev} {dev : Device} {s t m : Sfs} {b : ℕ}

/-! ## The invariant -/

/-- No reserved block is free, and the number of free blocks is right. -/
structure Spaced (s : Sfs) : Prop where
  geo : s.Geometry
  count : s.unusedBlocks = s.freemap.freeBits.card
  reserved : ∀ b, s.Free b → ¬s.Reserved b

namespace Spaced

theorem take (h : Spaced s) (hb : s.Free b) : Spaced (s.take b) where
  geo := h.geo.take hb
  count := by
    have hcard := Bitmap.card_freeBits_alloc hb.2.2.1 hb.2.2.2
    change s.unusedBlocks - 1 = (s.freemap.setBit b false).freeBits.card
    have := h.count
    omega
  reserved c hc := by
    obtain ⟨h0, hlt, hn, hbit⟩ := hc
    change (s.freemap.setBit b false).bit c = true at hbit
    rw [Bitmap.bit_setBit false hb.2.2.2] at hbit
    split at hbit
    · cases hbit
    · exact h.reserved c ⟨h0, hlt, hn, hbit⟩

theorem give (h : Spaced s) (hb : s.Used b) (hr : ¬s.Reserved b) : Spaced (s.give b) where
  geo := h.geo.give hb
  count := by
    have hcard := Bitmap.card_freeBits_free (lt_of_lt_of_le hb.2.1 h.geo.bits) hb.2.2
    change s.unusedBlocks + 1 = (s.freemap.setBit b true).freeBits.card
    have := h.count
    omega
  reserved c hc := by
    obtain ⟨h0, hlt, hn, hbit⟩ := hc
    change (s.freemap.setBit b true).bit c = true at hbit
    rw [Bitmap.bit_setBit true hb.2.2] at hbit
    split at hbit
    · rename_i hcb
      rw [hcb]
      exact hr
    · exact h.reserved c ⟨h0, hlt, hn, hbit⟩

theorem wait (h : Spaced s) (n : ℕ) : Spaced (s.wait n) :=
  ⟨h.geo.congr rfl rfl, h.count, h.reserved⟩

theorem setBlock (h : Spaced s) (m : Bytes) : Spaced (s.setBlock b m) :=
  ⟨h.geo.congr rfl rfl, h.count, h.reserved⟩

/-- **`sfs_block_alloc`.** -/
theorem blockAlloc (h : Spaced s) {r : Except Errno ℕ} (hr : Ucore.blockAlloc dev s = some (r, t)) :
    Spaced t := by
  obtain ⟨b, -, hf, rfl⟩ | ⟨b, e, -, hf, -, rfl⟩ | ⟨-, rfl, -⟩ := blockAlloc_eq_some h.geo hr
  · exact ((h.take hf).wait 1).setBlock _
  · exact (h.take hf).wait 1
  · exact h

theorem allocSound (h : Spaced s) : AllocSound dev s := by
  obtain ⟨r, t, hr⟩ : Code.Runs (Ucore.blockAlloc dev) s := blockAlloc_runs h.geo h.count
  refine ⟨h.count, r, t, hr, fun b hb => ?_⟩
  obtain ⟨c, hc, hf, -⟩ | ⟨c, e, he, -⟩ | ⟨he, -⟩ := blockAlloc_eq_some h.geo hr
  · obtain rfl : b = c := by
      rw [hb] at hc
      cases hc
      rfl
    exact ⟨Nat.pos_of_ne_zero hf.1, hf.2.1, h.reserved b hf⟩
  · rw [hb] at he
    cases he
  · rw [hb] at he
    cases he

end Spaced

theorem spaceMachine_spaced (h : Spaced m) {u : Sfs} (hr : (spaceMachine dev m).Reach u) :
    Spaced u := by
  refine hr.preserved (fun s hs => hs ▸ h) fun s op t hi hl hs => ?_
  cases op with
  | alloc =>
    obtain ⟨⟨r, u⟩, hr, rfl⟩ := Option.map_eq_some_iff.1 hs
    exact hi.blockAlloc hr
  | free b =>
    obtain ⟨⟨r, u⟩, hr, rfl⟩ := Option.map_eq_some_iff.1 hs
    obtain ⟨hu, -, rfl⟩ := (blockFree_iff hi.geo.bits).1 hr
    exact hi.give hu hl.2

/-! ## A bit that should not be free -/

/-- `sfs_block_alloc` takes a free bit, whatever it stands for. -/
theorem blockAlloc_takes (hw : s.freemap.nbits = 32 * s.freemap.nwords)
    (hb : s.blocks ≤ s.freemap.nbits) {r : Except Errno ℕ}
    (hr : blockAlloc dev s = some (r, t)) :
    (∃ c, s.freemap.bit c = true ∧ c < s.freemap.nbits ∧ t.freemap = s.freemap.setBit c false ∧
      t.blocks = s.blocks ∧ (r = .ok c ∨ ∃ n e, dev.fault n .clear = some e)) ∨
      s.freemap.freeBits = ∅ := by
  obtain ⟨c, u, hc, hk⟩ | ⟨e, he, rfl⟩ := Code.bind_eq_some.1 hr
  · obtain ⟨v, hv, rfl⟩ := Code.on_eq_some.1 hc
    obtain ⟨c', hc', hbit, hlt, rfl⟩ | ⟨hc', -⟩ := Bitmap.bitmapAlloc_eq_some hv
    · cases hc'
      refine .inl ⟨c, hbit, by omega, ?_⟩
      simp only [Code.get_bind_eq_some, Code.assert_bind_eq_some, Code.modify_bind_eq_some] at hk
      obtain ⟨-, hk⟩ := hk
      obtain ⟨-, hk⟩ := (assertInuse_bind_iff (s := s.take c) hb).1 hk
      obtain ⟨a, u, hclr, hk⟩ | ⟨e, hclr, rfl⟩ := Code.bind_eq_some.1 hk
      · obtain ⟨rfl, rfl⟩ := Code.pure_eq_some.1 hk
        obtain ⟨-, rfl⟩ | ⟨e, he, -⟩ := writeBlock_eq_some hclr
        · exact ⟨rfl, rfl, .inl rfl⟩
        · cases he
      · obtain ⟨he, -⟩ | ⟨e', he, hf, rfl⟩ := writeBlock_eq_some hclr
        · cases he
        · exact ⟨rfl, rfl, .inr ⟨_, _, hf⟩⟩
    · cases hc'
  · obtain ⟨v, hv, rfl⟩ := Code.on_eq_some.1 he
    obtain ⟨c', hc', -⟩ | ⟨-, rfl, hno⟩ := Bitmap.bitmapAlloc_eq_some hv
    · cases hc'
    · refine .inr (Finset.eq_empty_of_forall_notMem fun n hn => ?_)
      rw [Bitmap.freeBits, Finset.mem_filter, Finset.mem_range, hw] at hn
      rw [hno n hn.1] at hn
      cases hn.2

/-- A device that clears every block. -/
def clearingDevice : Device := ⟨fun _ _ => none⟩

/-- Allocation comes to every free bit in the end. -/
theorem free_bit_allocated (hw : m.freemap.nbits = 32 * m.freemap.nwords)
    (hb : m.blocks ≤ m.freemap.nbits)
    (hs : ∀ u, (spaceMachine clearingDevice m).Reach u → AllocSound clearingDevice u)
    (hbit : m.freemap.bit b = true) (hlt : b < m.freemap.nbits) :
    0 < b ∧ b < m.blocks ∧ ¬m.Reserved b := by
  by_contra hbad
  have hdown : ∀ n u, u.freemap.freeBits.card = n → (spaceMachine clearingDevice m).Reach u →
      u.freemap.nbits = m.freemap.nbits → u.freemap.nwords = m.freemap.nwords →
      u.blocks = m.blocks → u.freemap.bit b = true → False := by
    intro n
    induction n with
    | zero =>
      intro u hn _ hnb _ _ hub
      have hmem : b ∈ u.freemap.freeBits := by
        rw [Bitmap.freeBits, Finset.mem_filter, Finset.mem_range, hnb]
        exact ⟨hlt, hub⟩
      rw [Finset.card_eq_zero.1 hn] at hmem
      exact absurd hmem (Finset.notMem_empty b)
    | succ n ih =>
      intro u hn hu hnb hnw hblk hub
      obtain ⟨-, r, v, hr, hok⟩ := hs u hu
      obtain ⟨c, hc, hcn, hv, hvb, hrc⟩ | hempty :=
        blockAlloc_takes (by rw [hnb, hnw, hw]) (by rw [hblk, hnb]; exact hb) hr
      · obtain hrc | ⟨_, _, hf⟩ := hrc
        · have hcb : b ≠ c := fun e => by
            obtain ⟨h0, h1, h2⟩ := hok c hrc
            refine hbad ?_
            rw [e]
            unfold Sfs.Reserved at h2 ⊢
            rw [hblk] at h1 h2
            exact ⟨h0, h1, h2⟩
          refine ih v ?_ (hu.step (i := .alloc) trivial ?_) ?_ ?_ (hvb.trans hblk) ?_
          · have := Bitmap.card_freeBits_alloc hcn hc
            rw [hv]
            omega
          · change (blockAlloc clearingDevice u).map Prod.snd = some v
            rw [hr]
            rfl
          · rw [hv]
            exact hnb
          · rw [hv]
            exact hnw
          · rw [hv, Bitmap.bit_setBit false hc, if_neg hcb]
            exact hub
        · cases hf
      · rw [hempty] at hn
        cases hn
  exact hdown _ m rfl (.init rfl) rfl rfl rfl hbit

/-! ## Mounting -/

theorem mountedSfs_words (hn : d.super.freemapBits ≠ 0) :
    d.freemap.nbits = 32 * d.freemap.nwords ∧ d.super.blocks ≤ d.freemap.nbits := by
  obtain ⟨hbits, -, hle⟩ := freemapBits_of_ne_zero hn
  refine ⟨?_, hle⟩
  change d.super.freemapBits = 32 * (d.super.freemapBits / 32)
  omega

/-- **A sound image** makes a sound file system. -/
theorem spaced_mountedSfs (hn : d.super.freemapBits ≠ 0)
    (hu : d.super.unusedBlocks = d.freemap.freeBits.card)
    (hf : ∀ b < d.super.freemapBits, d.freemap.bit b = true →
      sfsBlknFreemap + d.super.freemapBlocks ≤ b ∧ b < d.super.blocks) (time : ℕ) :
    Spaced (mountedSfs d.super.endInfo d.freemap d.data time) where
  geo :=
    { words := (mountedSfs_words hn).1
      bits := (mountedSfs_words hn).2
      word := le_of_lt (SfsSuper.blocks_lt _)
      free := fun b hb hbit => by
        obtain ⟨h1, h2⟩ := hf b hb hbit
        unfold sfsBlknFreemap at h1
        exact ⟨by omega, h2⟩ }
  count := hu
  reserved b hb hr := by
    obtain ⟨h1, -⟩ := hf b hb.2.2.1 hb.2.2.2
    unfold SfsSuper.freemapBlocks sfsBlknFreemap at h1
    unfold Sfs.Reserved sfsBlknSuper sfsBlknRoot sfsBlknFreemap at hr
    change b = 0 ∨ b = 1 ∨ 2 ≤ b ∧ b < 2 + (d.super.blocks + 32767) / 32768 at hr
    omega

theorem not_mountSound {d : BlockDev} {s : MountState} (hc : d.Checked s.time)
    (hn : d.super.freemapBits ≠ 0) (hl : d.Loads s.time)
    (hu : d.freemap.freeBits.card ≠ d.super.unusedBlocks) : ¬MountSound d s := by
  unfold MountSound
  rw [doMount_miscounted hc hn hl hu]
  exact id

/-- **What `sfs_do_mount` checks.** -/
theorem mount_validates (d : BlockDev) (s : MountState) : MountSound d s ↔ SoundImage d s.time := by
  by_cases hc : d.Checked s.time
  · by_cases hn : d.super.freemapBits = 0
    · -- `bitmap_create` panics
      have hno := (freemapBits_eq_zero_iff d).1 hn
      unfold MountSound
      rw [doMount_no_bits hc hn]
      refine ⟨False.elim, fun h => ?_⟩
      obtain ⟨⟨h0, h1⟩, -⟩ := h hc
      omega
    · have hbl : 0 < d.super.blocks ∧ d.super.blocks ≤ 2 ^ 32 - 32768 := by
        have := mt (freemapBits_eq_zero_iff d).2 hn
        omega
      by_cases hl : d.Loads s.time
      · by_cases hu : d.freemap.freeBits.card = d.super.unusedBlocks
        · obtain ⟨time, hm⟩ := doMount_ok hc hn hl hu
          unfold MountSound
          rw [hm]
          constructor
          · intro h _
            refine ⟨hbl, fun _ => ⟨hu.symm, fun b hb hbit => ?_⟩⟩
            obtain ⟨h0, h1, h2⟩ :=
              free_bit_allocated (mountedSfs_words hn).1 (mountedSfs_words hn).2
              (fun u hr => h clearingDevice u hr) hbit hb
            refine ⟨not_lt.1 fun hlt => h2 ?_, h1⟩
            unfold SfsSuper.freemapBlocks sfsBlknFreemap at hlt
            unfold Sfs.Reserved sfsBlknSuper sfsBlknRoot sfsBlknFreemap
            change b = 0 ∨ b = 1 ∨ 2 ≤ b ∧ b < 2 + (d.super.blocks + 32767) / 32768
            omega
          · intro h dev u hr
            obtain ⟨hu', hf⟩ := (h hc).2 hl
            exact (spaceMachine_spaced (spaced_mountedSfs hn hu' hf time) hr).allocSound
        · exact ⟨fun h => absurd h (not_mountSound hc hn hl hu),
            fun h => absurd ((h hc).2 hl).1.symm hu⟩
      · obtain ⟨e, t, hr, ht⟩ := doMount_unread hc hn hl
        unfold MountSound
        rw [hr]
        exact ⟨fun _ _ => ⟨hbl, fun h => absurd h hl⟩, fun _ => ht⟩
  · obtain ⟨e, t, hr, ht⟩ := doMount_unchecked hc
    unfold MountSound
    rw [hr]
    exact ⟨fun _ h => absurd h hc, fun _ => ht⟩

end

/-- A device of eight blocks whose superblock says that none is free, with the bits of the blocks
    from 4 on. -/
def miscountedDisk : BlockDev where
  blocks := 8
  blocksize := 4096
  data b :=
    if b = sfsBlknSuper then SfsSuper.bytes ⟨sfsMagic, 8, 0, fun _ => 0⟩
    else if b = sfsBlknFreemap then Bytes.setWord (fun _ => 0) 4 0 0xF0
    else fun _ => 0
  faults := ⟨fun _ _ => none⟩

/-- The count of free blocks in the superblock is not checked with an error: `sfs_do_mount`
    panics. -/
theorem mount_miscounted_panics : ¬MountSound miscountedDisk ⟨0, []⟩ := by
  have hsuper : miscountedDisk.super.magic = sfsMagic ∧ miscountedDisk.super.blocks = 8 ∧
      miscountedDisk.super.unusedBlocks = 0 := by decide +kernel
  have hbit : miscountedDisk.freemap.bit 4 = true := by decide +kernel
  have hbits : miscountedDisk.super.freemapBits = 32768 := by
    rw [SfsSuper.freemapBits, hsuper.2.1]
    rfl
  have hc : miscountedDisk.Checked 0 :=
    ⟨rfl, rfl, rfl, ⟨by decide, rfl⟩, hsuper.1, by rw [hsuper.2.1]; decide, rfl⟩
  have hl : miscountedDisk.Loads 0 := ⟨rfl, rfl, fun k hk => by
    rw [SfsSuper.freemapBlocks, hsuper.2.1] at hk
    refine ⟨?_, rfl⟩
    change 2 + k < 8
    omega⟩
  have hu : miscountedDisk.freemap.freeBits.card ≠ miscountedDisk.super.unusedBlocks := by
    have hmem : 4 ∈ miscountedDisk.freemap.freeBits := by
      rw [Bitmap.freeBits, Finset.mem_filter, Finset.mem_range]
      refine ⟨?_, hbit⟩
      change 4 < miscountedDisk.super.freemapBits
      omega
    rw [hsuper.2.2]
    exact (Finset.card_pos.2 ⟨4, hmem⟩).ne'
  exact not_mountSound (s := ⟨0, []⟩) hc (by omega) hl hu

end Ucore
