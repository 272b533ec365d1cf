/-
  Block accounting: the blocks in use and the slots that refer to them.

  A slot is a block of the free map, an inode, the indirect block of an inode or an entry of its
  block map.  `Acct I E s` says that the blocks in use are those the slots of the inodes `I` refer
  to, each referred to by one slot, and the blocks `E`, which no slot refers to.

  * `Acct.take`, `Acct.give`, `Acct.setBlock`, …: what the single updates of the state do to it.
-/
import Ucore.Fs.SfsSpec
import Ucore.Lib.Ledger

namespace Ucore

/-! ## Slots -/

/-- Entry `k` of the block map. -/
def DiskInode.entry (din : DiskInode) (disk : ℕ → Bytes) (k : ℕ) : ℕ :=
  if h : k < 12 then din.direct ⟨k, h⟩
  else if din.indirect = 0 then 0 else (disk din.indirect).word 4 ((k - 12) * 4)

inductive Slot where
  | freemap (b : ℕ)
  | inode (ino : ℕ)
  | indirect (ino : ℕ)
  | data (ino k : ℕ)
  deriving DecidableEq

namespace Sfs

/-- The disk inode: that in memory, if the inode is. -/
def dinOf (s : Sfs) (ino : ℕ) : DiskInode :=
  if s.cached ino = true then s.din ino else .ofBytes (s.disk ino)

def bmap (s : Sfs) (ino k : ℕ) : ℕ := (s.dinOf ino).entry s.disk k

/-- `sfs_freemap_blocks`. -/
def freemapBlocks (s : Sfs) : ℕ := (s.blocks + 32767) / 32768

/-- The block a slot refers to, `I` being the inodes. -/
def slot (s : Sfs) (I : Finset ℕ) : Slot → ℕ
  | .freemap b => if sfsBlknFreemap ≤ b ∧ b < sfsBlknFreemap + s.freemapBlocks then b else 0
  | .inode ino => if ino ∈ I then ino else 0
  | .indirect ino => if ino ∈ I then (s.dinOf ino).indirect else 0
  | .data ino k => if ino ∈ I ∧ k < 1036 then s.bmap ino k else 0

end Sfs

/-- The accounts of `s` are right: the blocks in use are those of the slots and those of `E`. -/
structure Acct (I : Finset ℕ) (E : Set ℕ) (s : Sfs) : Prop where
  geo : s.Geometry
  nonzero : 0 ∉ I
  count : s.unusedBlocks = s.freemap.freeBits.card
  ledger : Ledger {b | s.Used b} (s.slot I) E
  cached : ∀ i, s.cached i = true → i ∈ I
  /-- An inode that is not dirty is on the disk; its number of blocks may have grown. -/
  clean : ∀ i, s.cached i = true → (s.sin i).dirty = false →
    (DiskInode.ofBytes (s.disk i)).direct = (s.din i).direct ∧
      (DiskInode.ofBytes (s.disk i)).indirect = (s.din i).indirect ∧
      (DiskInode.ofBytes (s.disk i)).blocks ≤ (s.din i).blocks
  links : ∀ i, s.cached i = true →
    (s.din i).nlinks ≠ 0 ∧ (DiskInode.ofBytes (s.disk i)).nlinks = (s.din i).nlinks

section
variable {I : Finset ℕ} {E : Set ℕ} {s t : Sfs} {i j k k' b n : ℕ} {m : Bytes}

/-! ## Entries -/

theorem DiskInode.entry_congr {d d' : DiskInode} {disk disk' : ℕ → Bytes}
    (h1 : d'.direct = d.direct) (h2 : d'.indirect = d.indirect)
    (h3 : d.indirect ≠ 0 → disk' d.indirect = disk d.indirect) :
    d'.entry disk' k = d.entry disk k := by
  unfold entry
  rw [h1, h2]
  split
  · rfl
  · split
    · rfl
    · rename_i h0
      rw [h3 h0]

theorem DiskInode.entry_direct (d : DiskInode) (disk : ℕ → Bytes) (k : Fin 12) (b : ℕ) :
    { d with direct := Function.update d.direct k b }.entry disk k' =
      if k' = k then b else d.entry disk k' := by
  unfold entry
  by_cases h : k' < 12
  · rw [dif_pos h, dif_pos h]
    by_cases hk : k' = k
    · have hk2 : (⟨k', h⟩ : Fin 12) = k := Fin.ext hk
      rw [if_pos hk, hk2]
      exact Function.update_self ..
    · have hk2 : (⟨k', h⟩ : Fin 12) ≠ k := fun e => hk (congrArg Fin.val e)
      rw [if_neg hk]
      exact Function.update_of_ne hk2 ..
  · have hk : k' ≠ k := fun e => h (e ▸ k.2)
    rw [dif_neg h, dif_neg h, if_neg hk]

/-- Entry `k` of an entry block after entry `k'` is written. -/
theorem word_entry (m buf : Bytes) (hk : k < 1024) :
    (m.copy 0 (m.copy (k' * 4) buf 4) 4096).word 4 (k * 4) =
      if k = k' then buf.word 4 0 else m.word 4 (k * 4) := by
  rw [Bytes.word_copy (by omega) (by omega), Nat.sub_zero]
  split
  · rename_i h
    rw [Bytes.word_copy (by omega) (by omega), show k * 4 - k' * 4 = 0 by omega]
  · rw [Bytes.word_copy_of_disjoint (by omega)]

/-! ## What the slots refer to -/

namespace Acct

theorem slot_inode (hi : i ∈ I) : s.slot I (.inode i) = i := if_pos hi

theorem slot_indirect (hi : i ∈ I) : s.slot I (.indirect i) = (s.dinOf i).indirect := if_pos hi

theorem slot_data (hi : i ∈ I) (hk : k < 1036) : s.slot I (.data i k) = s.bmap i k :=
  if_pos ⟨hi, hk⟩

theorem inode_ne_zero (h : Acct I E s) (hi : i ∈ I) : i ≠ 0 := fun h0 => h.nonzero (h0 ▸ hi)

theorem inode_used (h : Acct I E s) (hi : i ∈ I) : s.Used i := by
  have := h.ledger.marked (.inode i)
  rw [slot_inode hi] at this
  exact this (h.inode_ne_zero hi)

theorem indirect_used (h : Acct I E s) (hi : i ∈ I) (h0 : (s.dinOf i).indirect ≠ 0) :
    s.Used (s.dinOf i).indirect := by
  have := h.ledger.marked (.indirect i)
  rw [slot_indirect hi] at this
  exact this h0

theorem data_used (h : Acct I E s) (hi : i ∈ I) (hk : k < 1036) (h0 : s.bmap i k ≠ 0) :
    s.Used (s.bmap i k) := by
  have := h.ledger.marked (.data i k)
  rw [slot_data hi hk] at this
  exact this h0

/-- Only its inode slot refers to the block of an inode. -/
theorem indirect_ne_inode (h : Acct I E s) (hi : i ∈ I) (hj : j ∈ I) :
    (s.dinOf i).indirect ≠ j := by
  intro e
  have := h.ledger.once (.inode j) (.indirect i)
  rw [slot_inode hj, slot_indirect hi] at this
  cases this (h.inode_ne_zero hj) e.symm

theorem data_ne_inode (h : Acct I E s) (hi : i ∈ I) (hk : k < 1036) (hj : j ∈ I) :
    s.bmap i k ≠ j := by
  intro e
  have := h.ledger.once (.inode j) (.data i k)
  rw [slot_inode hj, slot_data hi hk] at this
  cases this (h.inode_ne_zero hj) e.symm

theorem data_ne_indirect (h : Acct I E s) (hi : i ∈ I) (hk : k < 1036) (hj : j ∈ I)
    (h0 : s.bmap i k ≠ 0) : (s.dinOf j).indirect ≠ s.bmap i k := by
  intro e
  have := h.ledger.once (.data i k) (.indirect j)
  rw [slot_data hi hk, slot_indirect hj] at this
  cases this h0 e.symm

theorem indirect_inj (h : Acct I E s) (hi : i ∈ I) (hj : j ∈ I) (h0 : (s.dinOf i).indirect ≠ 0)
    (e : (s.dinOf i).indirect = (s.dinOf j).indirect) : i = j := by
  have := h.ledger.once (.indirect i) (.indirect j)
  rw [slot_indirect hi, slot_indirect hj] at this
  cases this h0 e
  rfl

/-- **No block is mapped twice.** -/
theorem data_inj (h : Acct I E s) (hi : i ∈ I) (hk : k < 1036) (hj : j ∈ I) (hk' : k' < 1036)
    (h0 : s.bmap i k ≠ 0) (e : s.bmap i k = s.bmap j k') : i = j ∧ k = k' := by
  have := h.ledger.once (.data i k) (.data j k')
  rw [slot_data hi hk, slot_data hj hk'] at this
  cases this h0 e
  exact ⟨rfl, rfl⟩

theorem dinOf_of_cached (hc : s.cached i = true) : s.dinOf i = s.din i := if_pos hc

theorem used_lt (h : Acct I E s) (hb : s.Used b) : b < 2 ^ 32 := lt_of_lt_of_le hb.2.1 h.geo.word

theorem lent_used (h : Acct I E s) (hb : b ∈ E) : s.Used b := h.ledger.lent_marked b hb

theorem lent_ne_inode (h : Acct I E s) (hb : b ∈ E) (hi : i ∈ I) : b ≠ i := by
  have := h.ledger.lent_free b hb (.inode i)
  rw [slot_inode hi] at this
  exact this.symm

theorem lent_ne_indirect (h : Acct I E s) (hb : b ∈ E) (hi : i ∈ I) :
    (s.dinOf i).indirect ≠ b := by
  have := h.ledger.lent_free b hb (.indirect i)
  rwa [slot_indirect hi] at this

theorem not_lent_of_free (h : Acct I E s) (hb : s.Free b) : b ∉ E := fun hE =>
  Sfs.Geometry.not_used_of_free hb (h.lent_used hE)

end Acct

/-! ## Single updates -/

theorem slot_congr (hb : t.blocks = s.blocks)
    (hd : ∀ i ∈ I, (t.dinOf i).direct = (s.dinOf i).direct ∧
      (t.dinOf i).indirect = (s.dinOf i).indirect)
    (hk : ∀ i ∈ I, (s.dinOf i).indirect ≠ 0 →
      t.disk (s.dinOf i).indirect = s.disk (s.dinOf i).indirect) (x : Slot) :
    t.slot I x = s.slot I x := by
  cases x with
  | freemap b =>
    have hf : t.freemapBlocks = s.freemapBlocks := congrArg (fun n => (n + 32767) / 32768) hb
    simp only [Sfs.slot, hf]
  | inode i => rfl
  | indirect i =>
    by_cases hi : i ∈ I
    · rw [Acct.slot_indirect hi, Acct.slot_indirect hi, (hd i hi).2]
    · simp [Sfs.slot, hi]
  | data i k =>
    by_cases hi : i ∈ I
    · simp only [Sfs.slot, Sfs.bmap, DiskInode.entry_congr (hd i hi).1 (hd i hi).2 (hk i hi)]
    · simp [Sfs.slot, hi]

namespace Acct

theorem wait (h : Acct I E s) (n : ℕ) : Acct I E (s.wait n) :=
  ⟨h.geo.congr rfl rfl, h.nonzero, h.count, h.ledger, h.cached, h.clean, h.links⟩

theorem take (h : Acct I E s) (hb : s.Free b) : Acct I (insert b E) (s.take b) where
  geo := h.geo.take hb
  nonzero := h.nonzero
  count := by
    have := Bitmap.card_freeBits_alloc hb.2.2.1 hb.2.2.2
    have hc := h.count
    change s.unusedBlocks - 1 = (s.freemap.setBit b false).freeBits.card
    omega
  ledger := by
    have hu : {c | (s.take b).Used c} = insert b {c | s.Used c} := by
      ext c
      exact Sfs.used_take_iff hb
    rw [hu]
    exact h.ledger.take (Sfs.Geometry.not_used_of_free hb) hb.1
  cached := h.cached
  clean := h.clean
  links := h.links

theorem give (h : Acct I E s) (hb : b ∈ E) : Acct I (E \ {b}) (s.give b) where
  geo := h.geo.give (h.lent_used hb)
  nonzero := h.nonzero
  count := by
    have hu := h.lent_used hb
    have := Bitmap.card_freeBits_free (lt_of_lt_of_le hu.2.1 h.geo.bits) hu.2.2
    have hc := h.count
    change s.unusedBlocks + 1 = (s.freemap.setBit b true).freeBits.card
    omega
  ledger := by
    have hu : {c | (s.give b).Used c} = {c | s.Used c} \ {b} := by
      ext c
      exact Sfs.used_give_iff (h.lent_used hb)
    rw [hu]
    exact h.ledger.give hb
  cached := h.cached
  clean := h.clean
  links := h.links

theorem dinOf_setBlock (m : Bytes) (hb : b ≠ i) : (s.setBlock b m).dinOf i = s.dinOf i := by
  change (if s.cached i = true then s.din i else .ofBytes ((s.setBlock b m).disk i)) = _
  rw [Sfs.disk_setBlock, if_neg hb.symm]
  rfl

/-- A block that is not an inode is written; `hv` tells what happens to the slots. -/
theorem writeBlock (h : Acct I E s) (m : Bytes) {E' : Set ℕ} (hb : ∀ i ∈ I, b ≠ i)
    (hv : Ledger {b | s.Used b} ((s.setBlock b m).slot I) E') : Acct I E' (s.setBlock b m) where
  geo := h.geo.congr rfl rfl
  nonzero := h.nonzero
  count := h.count
  ledger := hv
  cached := h.cached
  clean i hc hn := by
    rw [Sfs.disk_setBlock, if_neg (hb i (h.cached i hc)).symm]
    exact h.clean i hc hn
  links i hc := by
    rw [Sfs.disk_setBlock, if_neg (hb i (h.cached i hc)).symm]
    exact h.links i hc

/-- A block is written that is neither an inode nor an indirect block. -/
theorem setBlock (h : Acct I E s) (m : Bytes)
    (hb : ∀ i ∈ I, b ≠ i ∧ (s.dinOf i).indirect ≠ b) : Acct I E (s.setBlock b m) := by
  refine h.writeBlock m (fun i hi => (hb i hi).1) (h.ledger.congr (slot_congr rfl
    (fun i hi => ?_) fun i hi _ => ?_))
  · rw [dinOf_setBlock m (hb i hi).1]
    exact ⟨rfl, rfl⟩
  · rw [Sfs.disk_setBlock, if_neg (hb i hi).2]

/-- The contents of a data block are written. -/
theorem setBlock_data (h : Acct I E s) (m : Bytes) (hi : i ∈ I) (hk : k < 1036)
    (h0 : s.bmap i k ≠ 0) : Acct I E (s.setBlock (s.bmap i k) m) :=
  h.setBlock m fun _ hj => ⟨h.data_ne_inode hi hk hj, h.data_ne_indirect hi hk hj h0⟩

theorem setBlock_lent (h : Acct I E s) (m : Bytes) (hb : b ∈ E) : Acct I E (s.setBlock b m) :=
  h.setBlock m fun _ hi => ⟨h.lent_ne_inode hb hi, h.lent_ne_indirect hb hi⟩

/-! ### The inode in memory -/

theorem dinOf_setSin {f : SfsInode → SfsInode} (hc : s.cached i = true) :
    (s.setSin i f).dinOf j = if j = i then (f (s.sin i)).din else s.dinOf j := by
  by_cases h : j = i
  · subst h
    rw [if_pos rfl, dinOf_of_cached (s := s.setSin j f) hc]
    simp [Sfs.din, Sfs.setSin]
  · rw [if_neg h]
    simp [Sfs.dinOf, Sfs.din, Sfs.setSin, h]

/-- The inode in memory is written; `val` tells what happens to the slots. -/
theorem setSin (h : Acct I E s) {f : SfsInode → SfsInode} {E' : Set ℕ} (hc : s.cached i = true)
    (hl : (f (s.sin i)).din.nlinks = (s.din i).nlinks)
    (hn : (f (s.sin i)).dirty = false → (s.sin i).dirty = false ∧
      (f (s.sin i)).din.direct = (s.din i).direct ∧
      (f (s.sin i)).din.indirect = (s.din i).indirect ∧
      (s.din i).blocks ≤ (f (s.sin i)).din.blocks)
    (hv : Ledger {b | s.Used b} ((s.setSin i f).slot I) E') : Acct I E' (s.setSin i f) := by
  refine ⟨h.geo.congr rfl rfl, h.nonzero, h.count, hv, h.cached, fun j hj hd => ?_, fun j hj => ?_⟩
  · have hdj := h.clean j hj
    rw [Sfs.din, Sfs.sin_setSin] at *
    split at hd
    · rename_i hji
      subst hji
      obtain ⟨h1, h2, h3, h4⟩ := hn hd
      obtain ⟨g1, g2, g3⟩ := h.clean j hj h1
      rw [if_pos rfl]
      exact ⟨g1.trans h2.symm, g2.trans h3.symm, g3.trans h4⟩
    · rename_i hji
      rw [if_neg hji]
      exact hdj hd
  · rw [Sfs.din, Sfs.sin_setSin]
    split
    · rename_i hji
      subst hji
      rw [hl]
      exact h.links j hj
    · exact h.links j hj

/-- Fields other than the slots and `nlinks` are written. -/
theorem setSin_same (h : Acct I E s) {f : SfsInode → SfsInode} (hc : s.cached i = true)
    (hl : (f (s.sin i)).din.nlinks = (s.din i).nlinks)
    (h1 : (f (s.sin i)).din.direct = (s.din i).direct)
    (h2 : (f (s.sin i)).din.indirect = (s.din i).indirect)
    (hn : (f (s.sin i)).dirty = false → (s.sin i).dirty = false ∧
      (s.din i).blocks ≤ (f (s.sin i)).din.blocks) : Acct I E (s.setSin i f) := by
  refine h.setSin hc hl (fun hd => ⟨(hn hd).1, h1, h2, (hn hd).2⟩)
    (h.ledger.congr (slot_congr rfl (fun j _ => ?_) fun _ _ _ => rfl))
  rw [dinOf_setSin hc]
  split
  · rename_i hji
    subst hji
    rw [h1, h2, dinOf_of_cached hc]
    exact ⟨rfl, rfl⟩
  · exact ⟨rfl, rfl⟩

theorem bmap_setDin_direct (hc : s.cached i = true) (k : Fin 12) (b : ℕ) :
    (s.setDin i fun din => { din with direct := Function.update din.direct k b }).bmap j k' =
      if j = i ∧ k' = k then b else s.bmap j k' := by
  unfold Sfs.bmap Sfs.setDin
  rw [dinOf_setSin hc]
  by_cases hj : j = i
  · subst hj
    rw [if_pos rfl, dinOf_of_cached hc]
    simp only [true_and]
    exact DiskInode.entry_direct _ _ _ _
  · rw [if_neg hj, if_neg fun e => hj e.1]
    rfl

theorem dinOf_setDin_direct (hc : s.cached i = true) (k : Fin 12) (b : ℕ) :
    ((s.setDin i fun din => { din with direct := Function.update din.direct k b }).dinOf j).indirect
      = (s.dinOf j).indirect := by
  rw [Sfs.setDin, dinOf_setSin hc]
  split
  · rename_i hj
    subst hj
    rw [dinOf_of_cached hc]
    rfl
  · rfl

/-- Slots other than direct ones are as before. -/
theorem slot_setDin_direct (hc : s.cached i = true) (k : Fin 12) (b : ℕ) (y : Slot)
    (hy : y ≠ .data i k) :
    (s.setDin i fun din => { din with direct := Function.update din.direct k b }).slot I y =
      s.slot I y := by
  cases y with
  | freemap b => rfl
  | inode i => rfl
  | indirect j => simp only [Sfs.slot, dinOf_setDin_direct hc]
  | data j k' =>
    have hne : ¬(j = i ∧ k' = k) := fun e => hy (by rw [e.1, e.2])
    simp only [Sfs.slot, bmap_setDin_direct hc, if_neg hne]

/-- A direct slot gets a block of `E`. -/
theorem setDirect (h : Acct I E s) (hc : s.cached i = true) {k : Fin 12}
    (h0 : (s.din i).direct k = 0) (hb : b ∈ E) : Acct I (E \ {b})
      (s.setDin i fun din => { din with direct := Function.update din.direct k b }) := by
  have hi := h.cached i hc
  have hk : (k : ℕ) < 1036 := by omega
  refine h.setSin hc rfl (fun hd => by cases hd)
    (h.ledger.assign (x := .data i k) hb ?_ ?_ fun y hy => slot_setDin_direct hc k b y hy)
  · rw [slot_data hi hk, Sfs.bmap, dinOf_of_cached hc, DiskInode.entry, dif_pos k.2]
    exact h0
  · refine (slot_data hi hk).trans ?_
    exact (bmap_setDin_direct hc k b).trans (if_pos ⟨rfl, rfl⟩)

/-- A direct slot is cleared. -/
theorem clearDirect (h : Acct I E s) (hc : s.cached i = true) {k : Fin 12}
    (hk0 : (s.din i).direct k = b) (hb : b ≠ 0) : Acct I (insert b E)
      (s.setDin i fun din => { din with direct := Function.update din.direct k 0 }) := by
  have hi := h.cached i hc
  have hk : (k : ℕ) < 1036 := by omega
  refine h.setSin hc rfl (fun hd => by cases hd)
    (h.ledger.clear (x := .data i k) ?_ hb ?_ fun y hy => slot_setDin_direct hc k 0 y hy)
  · rw [slot_data hi hk, Sfs.bmap, dinOf_of_cached hc, DiskInode.entry, dif_pos k.2]
    exact hk0
  · refine (slot_data hi hk).trans ?_
    exact (bmap_setDin_direct hc k 0).trans (if_pos ⟨rfl, rfl⟩)

/-! ### The indirect block -/

/-- Entry `k` of the indirect block of `i` is written. -/
theorem bmap_setEntry (h : Acct I E s) (buf : Bytes) (hi : i ∈ I) (h0 : (s.dinOf i).indirect ≠ 0)
    (hk : k < 1024) (hj : j ∈ I) (hk' : k' < 1036) :
    (s.setBlock (s.dinOf i).indirect
      ((s.disk (s.dinOf i).indirect).copy (k * 4) buf 4)).bmap j k' =
        if j = i ∧ k' = k + 12 then buf.word 4 0 else s.bmap j k' := by
  unfold Sfs.bmap
  rw [dinOf_setBlock _ (h.indirect_ne_inode hi hj)]
  by_cases hji : j = i
  · subst hji
    unfold DiskInode.entry
    by_cases hd : k' < 12
    · rw [dif_pos hd, dif_pos hd, if_neg (by omega)]
    · rw [dif_neg hd, dif_neg hd, if_neg h0, if_neg h0, Sfs.disk_setBlock, if_pos rfl,
        word_entry _ _ (by omega)]
      by_cases hkk : k' - 12 = k
      · rw [if_pos hkk, if_pos ⟨rfl, by omega⟩]
      · rw [if_neg hkk, if_neg (by omega)]
  · rw [if_neg fun e => hji e.1]
    refine DiskInode.entry_congr rfl rfl fun hj0 => ?_
    rw [Sfs.disk_setBlock, if_neg fun e => hji (h.indirect_inj hj hi hj0 e)]

/-- Slots other than the entry are as before. -/
theorem slot_setEntry (h : Acct I E s) (buf : Bytes) (hi : i ∈ I) (h0 : (s.dinOf i).indirect ≠ 0)
    (hk : k < 1024) (y : Slot) (hy : y ≠ .data i (k + 12)) :
    (s.setBlock (s.dinOf i).indirect
      ((s.disk (s.dinOf i).indirect).copy (k * 4) buf 4)).slot I y = s.slot I y := by
  cases y with
  | freemap b => rfl
  | inode i => rfl
  | indirect j =>
    by_cases hj : j ∈ I
    · rw [slot_indirect hj, slot_indirect hj, dinOf_setBlock _ (h.indirect_ne_inode hi hj)]
    · simp [Sfs.slot, hj]
  | data j k' =>
    by_cases hj : j ∈ I ∧ k' < 1036
    · have hne : ¬(j = i ∧ k' = k + 12) := fun e => hy (by rw [e.1, e.2])
      rw [slot_data hj.1 hj.2, slot_data hj.1 hj.2, h.bmap_setEntry buf hi h0 hk hj.1 hj.2,
        if_neg hne]
    · rw [Sfs.slot, if_neg hj, Sfs.slot, if_neg hj]

theorem word_ofWord (h : Acct I E s) (hb : s.Used b) : (Bytes.ofWord b).word 4 0 = b :=
  (Bytes.word_ofWord 4 b).trans (Nat.mod_eq_of_lt (h.used_lt hb))

/-- An entry of the indirect block gets a block of `E`. -/
theorem setEntry (h : Acct I E s) (hi : i ∈ I) (h0 : (s.dinOf i).indirect ≠ 0) (hk : k < 1024)
    (hz : s.bmap i (k + 12) = 0) (hb : b ∈ E) : Acct I (E \ {b}) (s.setBlock (s.dinOf i).indirect
      ((s.disk (s.dinOf i).indirect).copy (k * 4) (.ofWord b) 4)) := by
  have hk2 : k + 12 < 1036 := by omega
  refine h.writeBlock _ (fun j hj => h.indirect_ne_inode hi hj)
    (h.ledger.assign (x := .data i (k + 12)) hb ?_ ?_ fun y hy => h.slot_setEntry _ hi h0 hk y hy)
  · rw [slot_data hi hk2, hz]
  · rw [slot_data hi hk2, h.bmap_setEntry _ hi h0 hk hi hk2, if_pos ⟨rfl, rfl⟩,
      h.word_ofWord (h.lent_used hb)]

/-- An entry of the indirect block is cleared. -/
theorem clearEntry (h : Acct I E s) (hi : i ∈ I) (h0 : (s.dinOf i).indirect ≠ 0) (hk : k < 1024)
    (hz : s.bmap i (k + 12) = b) (hb : b ≠ 0) :
    Acct I (insert b E) (s.setBlock (s.dinOf i).indirect
      ((s.disk (s.dinOf i).indirect).copy (k * 4) (fun _ => 0) 4)) := by
  have hk2 : k + 12 < 1036 := by omega
  refine h.writeBlock _ (fun j hj => h.indirect_ne_inode hi hj)
    (h.ledger.clear (x := .data i (k + 12)) ?_ hb ?_ fun y hy => h.slot_setEntry _ hi h0 hk y hy)
  · rw [slot_data hi hk2, hz]
  · rw [slot_data hi hk2, h.bmap_setEntry _ hi h0 hk hi hk2, if_pos ⟨rfl, rfl⟩, Bytes.word_zero]

/-- The inode gets an indirect block, whose only entry is `b`. -/
theorem bmap_setIndirect (hc : s.cached i = true) (hn : (s.din i).indirect = 0) {ent : ℕ}
    (he : ent ≠ 0) (hw : ∀ k < 1024, (s.disk ent).word 4 (k * 4) = if k = n then b else 0)
    (hk' : k' < 1036) :
    (s.setDin i fun din => { din with indirect := ent }).bmap j k' =
      if j = i ∧ k' = n + 12 then b else s.bmap j k' := by
  unfold Sfs.bmap Sfs.setDin
  rw [dinOf_setSin hc]
  by_cases hj : j = i
  · subst hj
    rw [if_pos rfl, dinOf_of_cached hc]
    unfold DiskInode.entry
    by_cases hd : k' < 12
    · rw [dif_pos hd, dif_pos hd, if_neg (by omega)]
      rfl
    · rw [dif_neg hd, dif_neg hd, if_neg he, if_pos hn]
      refine (hw (k' - 12) (by omega)).trans ?_
      by_cases hkk : k' - 12 = n
      · rw [if_pos hkk, if_pos ⟨rfl, by omega⟩]
      · rw [if_neg hkk, if_neg (by omega)]
  · rw [if_neg hj, if_neg fun e => hj e.1]
    rfl

theorem setIndirect (h : Acct I E s) (hc : s.cached i = true) (hn : (s.din i).indirect = 0)
    {ent : ℕ} (he : ent ∈ E) (hb : b ∈ E) (hne : b ≠ ent) (hn' : n < 1024)
    (hw : ∀ k < 1024, (s.disk ent).word 4 (k * 4) = if k = n then b else 0) :
    Acct I ((E \ {ent}) \ {b}) (s.setDin i fun din => { din with indirect := ent }) := by
  have hi := h.cached i hc
  have he0 : ent ≠ 0 := (h.lent_used he).1
  have hk2 : n + 12 < 1036 := by omega
  have hbm := fun j k' (hk' : k' < 1036) => bmap_setIndirect (j := j) hc hn he0 hw hk'
  have hind : ∀ j, j ≠ i →
      ((s.setDin i fun din => { din with indirect := ent }).dinOf j) = s.dinOf j := fun j hj => by
    rw [Sfs.setDin, dinOf_setSin hc, if_neg hj]
  -- first the slot of the indirect block, then its entry
  have h1 : Ledger {b | s.Used b}
      (fun x => if x = .indirect i then ent else s.slot I x) (E \ {ent}) := by
    refine h.ledger.assign (x := .indirect i) he ?_ (if_pos rfl) fun y hy => if_neg hy
    rw [slot_indirect hi, dinOf_of_cached hc, hn]
  refine h.setSin hc rfl (fun hd => by cases hd) (h1.assign (x := .data i (n + 12)) ⟨hb, hne⟩ ?_ ?_
    fun y hy => ?_)
  · rw [if_neg (by simp), slot_data hi hk2, Sfs.bmap, dinOf_of_cached hc, DiskInode.entry,
      dif_neg (by omega), if_pos hn]
  · refine (slot_data hi hk2).trans ?_
    exact (hbm i (n + 12) hk2).trans (if_pos ⟨rfl, rfl⟩)
  · cases y with
    | freemap b => rfl
    | inode i => rfl
    | indirect j =>
      by_cases hj : j = i
      · subst hj
        rw [if_pos rfl]
        refine (slot_indirect hi).trans ?_
        rw [dinOf_setSin hc, if_pos rfl]
      · have hne' : Slot.indirect j ≠ .indirect i := fun e => hj (by cases e; rfl)
        rw [if_neg hne']
        simp only [Sfs.slot]
        exact if_congr Iff.rfl (congrArg DiskInode.indirect (hind j hj)) rfl
    | data j k' =>
      rw [if_neg (by simp)]
      by_cases hj : j ∈ I ∧ k' < 1036
      · have hne' : ¬(j = i ∧ k' = n + 12) := fun e => hy (by rw [e.1, e.2])
        rw [slot_data hj.1 hj.2, slot_data hj.1 hj.2]
        exact (hbm j k' hj.2).trans (if_neg hne')
      · rw [Sfs.slot, if_neg hj, Sfs.slot, if_neg hj]

/-! ### Inodes on the disk -/

/-- The inode on the disk is read again as it was written, up to the widths of the fields. -/
theorem ofBytes_bytes (m : Bytes) (din : DiskInode) :
    DiskInode.ofBytes (m.copy 0 (m.copy 0 din.bytes 64) 4096) =
      { size := din.size % 2 ^ 32
        type := din.type % 2 ^ 16
        nlinks := din.nlinks % 2 ^ 16
        blocks := din.blocks % 2 ^ 32
        direct := fun k => din.direct k % 2 ^ 32
        indirect := din.indirect % 2 ^ 32 } := by
  have hw : ∀ w o, o + w ≤ 64 → (m.copy 0 (m.copy 0 din.bytes 64) 4096).word w o =
      din.bytes.word w o := fun w o ho => by
    rw [Bytes.word_copy (by omega) (by omega), Bytes.word_copy (by omega) (by omega)]
    rfl
  have hd : ∀ k : Fin 12, din.bytes.word 4 (12 + 4 * k) = din.direct k % 2 ^ 32 := fun k => by
    have := Bytes.word_fields_array (w := 4) (List.ofFn din.direct)
      [(4, din.size), (2, din.type), (2, din.nlinks), (4, din.blocks)] [(4, din.indirect)]
      (k := k) (by rw [List.length_ofFn]; exact k.2)
    rwa [List.getElem_ofFn] at this
  have hi : din.bytes.word 4 60 = din.indirect % 2 ^ 32 := by
    have := Bytes.word_fields (w := 4) din.indirect []
      ([(4, din.size), (2, din.type), (2, din.nlinks), (4, din.blocks)] ++
        (List.ofFn din.direct).map (fun ino => (4, ino)))
    rwa [Bytes.width_append, Bytes.width_array, List.length_ofFn] at this
  ext1
  · refine (hw 4 0 (by omega)).trans ?_
    exact Bytes.word_fields (w := 4) din.size _ []
  · refine (hw 2 4 (by omega)).trans ?_
    exact Bytes.word_fields (w := 2) din.type _ [(4, din.size)]
  · refine (hw 2 6 (by omega)).trans ?_
    exact Bytes.word_fields (w := 2) din.nlinks _ [(4, din.size), (2, din.type)]
  · refine (hw 4 8 (by omega)).trans ?_
    exact Bytes.word_fields (w := 4) din.blocks _ [(4, din.size), (2, din.type), (2, din.nlinks)]
  · funext k
    exact (hw 4 _ (by omega)).trans (hd k)
  · exact (hw 4 60 (by omega)).trans hi

/-- `sfs_fsync` writes the inode. -/
theorem sync (h : Acct I E s) (hc : s.cached i = true) :
    Acct I E ((s.setSin i fun sin => { sin with dirty := false }).setBlock i
      ((s.disk i).copy 0 (s.din i).bytes 64)) := by
  have hi := h.cached i hc
  have hdisk : ∀ c, ((s.setSin i fun sin => { sin with dirty := false }).setBlock i
      ((s.disk i).copy 0 (s.din i).bytes 64)).disk c =
        if c = i then (s.disk i).copy 0 ((s.disk i).copy 0 (s.din i).bytes 64) 4096
        else s.disk c := fun c => Sfs.disk_setBlock _
  have hdin : ∀ j, ((s.setSin i fun sin => { sin with dirty := false }).setBlock i
      ((s.disk i).copy 0 (s.din i).bytes 64)).din j = s.din j := fun j => by
    by_cases hj : j = i
    · subst hj
      simp [Sfs.din, Sfs.setSin, Sfs.setBlock]
    · simp [Sfs.din, Sfs.setSin, Sfs.setBlock, hj]
  have hdirect : ∀ k, (s.din i).direct k % 2 ^ 32 = (s.din i).direct k := fun k => by
    refine Nat.mod_eq_of_lt ?_
    by_cases h0 : (s.din i).direct k = 0
    · rw [h0]
      omega
    · have hb : s.bmap i k = (s.din i).direct k := by
        rw [Sfs.bmap, dinOf_of_cached hc, DiskInode.entry, dif_pos k.2]
      exact h.used_lt (hb ▸ h.data_used hi (k := k) (by omega) (by rwa [hb]))
  have hindirect : (s.din i).indirect % 2 ^ 32 = (s.din i).indirect := by
    refine Nat.mod_eq_of_lt ?_
    by_cases h0 : (s.din i).indirect = 0
    · rw [h0]
      omega
    · have := h.indirect_used hi
      rw [dinOf_of_cached hc] at this
      exact h.used_lt (this h0)
  have hnlinks : (s.din i).nlinks % 2 ^ 16 = (s.din i).nlinks := by
    refine Nat.mod_eq_of_lt ?_
    rw [← (h.links i hc).2]
    exact Bytes.word_lt 2 6
  have hof : DiskInode.ofBytes ((s.disk i).copy 0 ((s.disk i).copy 0 (s.din i).bytes 64) 4096) =
      { size := (s.din i).size % 2 ^ 32
        type := (s.din i).type % 2 ^ 16
        nlinks := (s.din i).nlinks
        blocks := (s.din i).blocks % 2 ^ 32
        direct := (s.din i).direct
        indirect := (s.din i).indirect } := by
    rw [ofBytes_bytes, hnlinks, hindirect, funext hdirect]
  have hdinOf : ∀ j ∈ I, ((s.setSin i fun sin => { sin with dirty := false }).setBlock i
      ((s.disk i).copy 0 (s.din i).bytes 64)).dinOf j = s.dinOf j := fun j hj => by
    change (if s.cached j = true then _ else _) = _
    rw [hdin, hdisk]
    by_cases hji : j = i
    · subst hji
      rw [if_pos hc, dinOf_of_cached hc]
    · rw [if_neg hji]
      rfl
  refine ⟨h.geo.congr rfl rfl, h.nonzero, h.count, h.ledger.congr (slot_congr rfl
    (fun j hj => by rw [hdinOf j hj]; exact ⟨rfl, rfl⟩) fun j hj _ => ?_), h.cached,
    fun j hj hd => ?_, fun j hj => ?_⟩
  · rw [hdisk, if_neg (h.indirect_ne_inode hj hi)]
  · rw [hdin, hdisk]
    by_cases hji : j = i
    · subst hji
      rw [if_pos rfl, hof]
      exact ⟨rfl, rfl, Nat.mod_le _ _⟩
    · rw [if_neg hji]
      refine h.clean j hj ?_
      have : ((s.setSin i fun sin => { sin with dirty := false }).sin j).dirty = false := hd
      rwa [Sfs.sin_setSin, if_neg hji] at this
  · rw [hdin, hdisk]
    by_cases hji : j = i
    · subst hji
      rw [if_pos rfl, hof]
      exact ⟨(h.links j hj).1, rfl⟩
    · rw [if_neg hji]
      exact h.links j hj

/-- The state with inode `i` read into memory. -/
def loaded (s : Sfs) (i : ℕ) : Sfs :=
  { s with
    cached := Function.update s.cached i true
    sin := Function.update s.sin i ⟨.ofBytes (s.disk i), false, 1, 1⟩ }

theorem dinOf_loaded (hc : s.cached i = false) : (loaded s i).dinOf j = s.dinOf j := by
  by_cases hj : j = i
  · subst hj
    simp [loaded, Sfs.dinOf, Sfs.din, hc]
  · simp [loaded, Sfs.dinOf, Sfs.din, hj]

theorem load (h : Acct I E s) (hi : i ∈ I) (hc : s.cached i = false)
    (hl : (DiskInode.ofBytes (s.disk i)).nlinks ≠ 0) : Acct I E (loaded s i) := by
  refine ⟨h.geo.congr rfl rfl, h.nonzero, h.count, h.ledger.congr (slot_congr rfl
    (fun j _ => by rw [dinOf_loaded hc]; exact ⟨rfl, rfl⟩) fun _ _ _ => rfl), fun j hj => ?_,
    fun j hj hd => ?_, fun j hj => ?_⟩
  · by_cases hji : j = i
    · exact hji ▸ hi
    · exact h.cached j (by simpa [loaded, hji] using hj)
  · by_cases hji : j = i
    · subst hji
      simp [loaded, Sfs.din]
    · have := h.clean j (by simpa [loaded, hji] using hj) (by simpa [loaded, hji] using hd)
      simpa [loaded, Sfs.din, hji] using this
  · by_cases hji : j = i
    · subst hji
      simpa [loaded, Sfs.din] using hl
    · have := h.links j (by simpa [loaded, hji] using hj)
      simpa [loaded, Sfs.din, hji] using this

/-- An inode that is not dirty leaves the memory. -/
theorem drop (h : Acct I E s) (hd : (s.sin i).dirty = false) :
    Acct I E { s with cached := Function.update s.cached i false } := by
  have hdin : ∀ j, ({ s with cached := Function.update s.cached i false } : Sfs).dinOf j =
      if j = i then .ofBytes (s.disk i) else s.dinOf j := fun j => by
    by_cases hj : j = i
    · subst hj
      simp [Sfs.dinOf]
    · simp [Sfs.dinOf, Sfs.din, hj]
  have hc : ∀ j, ({ s with cached := Function.update s.cached i false } : Sfs).cached j = true →
      s.cached j = true := fun j hj => by
    by_cases hji : j = i
    · subst hji
      simp at hj
    · simpa [hji] using hj
  refine ⟨h.geo.congr rfl rfl, h.nonzero, h.count, h.ledger.congr (slot_congr rfl
    (fun j _ => ?_) fun _ _ _ => rfl), fun j hj => h.cached j (hc j hj),
    fun j hj => h.clean j (hc j hj), fun j hj => h.links j (hc j hj)⟩
  rw [hdin]
  by_cases hji : j = i
  · subst hji
    rw [if_pos rfl]
    by_cases hj : s.cached j = true
    · obtain ⟨h1, h2, -⟩ := h.clean j hj hd
      rw [dinOf_of_cached hj]
      exact ⟨h1, h2⟩
    · rw [Sfs.dinOf, if_neg hj]
      exact ⟨rfl, rfl⟩
  · rw [if_neg hji]
    exact ⟨rfl, rfl⟩

end Acct

end

end Ucore
