/-
  The image that `mksfs` makes, and the kernel that mounts it.

  * `Made`: the invariant; the next number goes up from the block behind the free map, and every
    block and inode in memory has a number that `sfs_alloc_ino` has returned, or is the root;
  * `closeFreemap_eq`, `bit_freemapPiece`: the pieces of the free map;
  * `image_consistent`: the kernel finds the free map that the program means.
-/
import Ucore.Tools.Mksfs
import Ucore.Fs.MountRun
import Mathlib.Order.Interval.Finset.Nat

namespace Ucore

namespace Mksfs

/-- The program on an image file of `size` bytes. -/
def mksfsMachine (size : ℕ) : Machine State Op where
  Init s := ∃ junk entry image, createSfs junk entry image size = some s
  Legal := Op.Legal
  step := Op.step

/-- The image file as the disk of the kernel. -/
def imageDev (size : ℕ) (image : ℕ → Bytes) : BlockDev :=
  ⟨size / 4096, 4096, image, ⟨fun _ _ => none⟩⟩

/-- What the kernel finds in the image: the free map ends at `stop`, and its bits are those of the
    blocks behind the last one allocated; what has been allocated is apart. -/
structure ImageSound (size : ℕ) (s : State) (stop : ℕ) (d : BlockDev) : Prop where
  magic : d.super.magic = sfsMagic
  blocks : d.super.blocks = s.ninos ∧ d.super.blocks ≤ d.blocks
  freemapBlocks : stop = sfsBlknFreemap + d.super.freemapBlocks
  bits : ∀ b < d.super.freemapBits,
    (d.freemap.bit b = true ↔ s.nextIno ≤ b ∧ b < d.super.blocks)
  unused : d.super.unusedBlocks = d.freemap.freeBits.card
  allocated : s.allocated.Nodup ∧ ∀ b ∈ s.allocated, b < d.super.blocks ∧ b ≠ sfsBlknSuper ∧
    b ≠ sfsBlknRoot ∧ ¬(sfsBlknFreemap ≤ b ∧ b < stop)
  sound : ∀ t, SoundImage d t

/-- The number of blocks of the free map. -/
def pieces (s : State) : ℕ := (s.ninos + 32767) / 32768

/-! ## The invariant -/

/-- What holds while the program runs on a file of `size` bytes. -/
structure Made (size : ℕ) (s : State) : Prop where
  fits : s.ninos ≤ 524288 ∧ s.ninos ≤ size / 4096
  next : 2 + pieces s ≤ s.nextIno ∧ s.nextIno ≤ s.ninos
  super : s.super.magic = sfsMagic ∧ s.super.blocks = s.ninos ∧
    s.super.unusedBlocks + s.nextIno = s.ninos
  nodup : s.allocated.Nodup
  allocated : ∀ b ∈ s.allocated, 2 + pieces s ≤ b ∧ b < s.nextIno
  blocks : ∀ i, ∀ cb ∈ s.blocks i, cb < s.blockCount ∧ (s.cacheBlock cb).ino ∈ s.allocated
  inodes : ∀ i, ∀ ci ∈ s.inodes i,
    ci < s.inodeCount ∧ ((s.cacheInode ci).ino = sfsBlknRoot ∨ (s.cacheInode ci).ino ∈ s.allocated)

/-- The two states have the same numbers. -/
structure SameNumbers (s t : State) : Prop where
  super : t.super = s.super
  ninos : t.ninos = s.ninos
  nextIno : t.nextIno = s.nextIno
  allocated : t.allocated = s.allocated
  blocks : t.blocks = s.blocks
  inodes : t.inodes = s.inodes
  blockCount : t.blockCount = s.blockCount
  inodeCount : t.inodeCount = s.inodeCount
  blockIno : ∀ cb, (t.cacheBlock cb).ino = (s.cacheBlock cb).ino
  inodeIno : ∀ ci, (t.cacheInode ci).ino = (s.cacheInode ci).ino

section
variable {size : ℕ} {s t : State} {b n : ℕ}

theorem setEntry_same (s : State) (cb k ino : ℕ) : SameNumbers s (setEntry s cb k ino) :=
  ⟨rfl, rfl, rfl, rfl, rfl, rfl, rfl, rfl, fun cb' => by
    simp only [setEntry]
    by_cases h : cb' = cb
    · subst h
      rw [Function.update_self]
    · rw [Function.update_of_ne h], fun _ => rfl⟩

theorem setInode_same (s : State) (file : ℕ) {f : CacheInode → CacheInode}
    (hf : ∀ ci, (f ci).ino = ci.ino) : SameNumbers s (setInode s file f) :=
  ⟨rfl, rfl, rfl, rfl, rfl, rfl, rfl, rfl, fun _ => rfl, fun ci => by
    simp only [setInode]
    by_cases h : ci = file
    · subst h
      rw [Function.update_self, hf]
    · rw [Function.update_of_ne h]⟩

theorem writeBlock_eq_some {data : Bytes} {len ino : ℕ} (h : writeBlock s data len ino = some t) :
    ino < s.ninos ∧
      t = { s with image := Function.update s.image ino (Bytes.copy (fun _ => 0) 0 data len) } := by
  unfold writeBlock at h
  split at h
  · rename_i hc
    cases h
    exact ⟨hc.2, rfl⟩
  · cases h

namespace Made

theorem same (h : Made size s) (hs : SameNumbers s t) : Made size t := by
  have hp : pieces t = pieces s := by rw [pieces, pieces, hs.ninos]
  refine ⟨?_, ?_, ?_, ?_, ?_, fun i cb hcb => ?_, fun i ci hci => ?_⟩
  · rw [hs.ninos]
    exact h.fits
  · rw [hp, hs.nextIno, hs.ninos]
    exact h.next
  · rw [hs.super, hs.nextIno, hs.ninos]
    exact h.super
  · rw [hs.allocated]
    exact h.nodup
  · rw [hp, hs.allocated, hs.nextIno]
    exact h.allocated
  · rw [hs.blocks] at hcb
    rw [hs.blockIno, hs.allocated, hs.blockCount]
    exact h.blocks i cb hcb
  · rw [hs.inodes] at hci
    rw [hs.inodeIno, hs.allocated, hs.inodeCount]
    exact h.inodes i ci hci

theorem writeBlock (h : Made size s) {data : Bytes} {len ino : ℕ}
    (hs : Mksfs.writeBlock s data len ino = some t) : Made size t := by
  obtain ⟨-, rfl⟩ := writeBlock_eq_some hs
  exact h.same ⟨rfl, rfl, rfl, rfl, rfl, rfl, rfl, rfl, fun _ => rfl, fun _ => rfl⟩

/-- **`sfs_alloc_ino`.** -/
theorem allocIno (h : Made size s) (hs : Mksfs.allocIno s = some (b, t)) :
    Made size t ∧ b ∈ t.allocated := by
  unfold Mksfs.allocIno at hs
  split at hs
  · rename_i hlt
    cases hs
    have hu := h.super.2.2
    refine ⟨⟨h.fits, ?_, ⟨h.super.1, h.super.2.1, ?_⟩, ?_, fun c hc => ?_, fun i cb hcb => ?_,
      fun i ci hci => ?_⟩, List.mem_cons_self⟩
    · exact ⟨h.next.1.trans (Nat.le_succ _), hlt⟩
    · dsimp only
      omega
    · refine List.nodup_cons.2 ⟨fun hm => ?_, h.nodup⟩
      exact absurd (h.allocated _ hm).2 (lt_irrefl _)
    · obtain rfl | hc := List.mem_cons.1 hc
      · exact ⟨h.next.1, Nat.lt_succ_self _⟩
      · obtain ⟨h1, h2⟩ := h.allocated c hc
        exact ⟨h1, Nat.lt_succ_of_lt h2⟩
    · obtain ⟨h1, h2⟩ := h.blocks i cb hcb
      exact ⟨h1, List.mem_cons_of_mem _ h2⟩
    · obtain ⟨h1, h2⟩ := h.inodes i ci hci
      exact ⟨h1, h2.imp_right (List.mem_cons_of_mem _)⟩
  · cases hs

/-- A chain gets an element at its head. -/
theorem mem_chain {f : ℕ → List ℕ} {k i x y : ℕ}
    (h : x ∈ Function.update f k (y :: f k) i) : x = y ∨ x ∈ f i := by
  by_cases hi : i = k
  · subst hi
    rw [Function.update_self] at h
    exact List.mem_cons.1 h
  · rw [Function.update_of_ne hi] at h
    exact .inr h

theorem allocCacheBlock (h : Made size s) (hs : Mksfs.allocCacheBlock s 0 = some (b, t)) :
    Made size t := by
  obtain ⟨⟨ino, u⟩, hu, ht⟩ := Option.map_eq_some_iff.1 hs
  obtain ⟨hu, hino⟩ := h.allocIno hu
  cases ht
  refine ⟨hu.fits, hu.next, hu.super, hu.nodup, hu.allocated, fun i cb hcb => ?_, hu.inodes⟩
  dsimp only
  obtain rfl | hcb := mem_chain hcb
  · rw [Function.update_self]
    exact ⟨Nat.lt_succ_self _, hino⟩
  · obtain ⟨h1, h2⟩ := hu.blocks i cb hcb
    rw [Function.update_of_ne (Nat.ne_of_lt h1)]
    exact ⟨Nat.lt_succ_of_lt h1, h2⟩

/-- An inode gets a number that is the root's or has been allocated. -/
theorem addInode (h : Made size s) (real ino type : ℕ)
    (hino : ino = sfsBlknRoot ∨ ino ∈ s.allocated) :
    Made size { s with
      cacheInode := Function.update s.cacheInode s.inodeCount
        ⟨⟨0, type, 0, 0, fun _ => 0, 0, 0⟩, real, ino, 0, none, none⟩
      inodeCount := s.inodeCount + 1
      inodes := Function.update s.inodes (hash32 (real % 2 ^ 32) 10)
        (s.inodeCount :: s.inodes (hash32 (real % 2 ^ 32) 10)) } := by
  refine ⟨h.fits, h.next, h.super, h.nodup, h.allocated, h.blocks, fun i ci hci => ?_⟩
  dsimp only
  obtain rfl | hci := mem_chain hci
  · rw [Function.update_self]
    exact ⟨Nat.lt_succ_self _, hino⟩
  · obtain ⟨h1, h2⟩ := h.inodes i ci hci
    rw [Function.update_of_ne (Nat.ne_of_lt h1)]
    exact ⟨Nat.lt_succ_of_lt h1, h2⟩

theorem updateCache (h : Made size s) {cb : Option ℕ} {ino c i : ℕ}
    (hs : Mksfs.updateCache s cb ino = some (c, i, t)) : Made size t := by
  unfold Mksfs.updateCache at hs
  split at hs
  · obtain ⟨⟨c', u⟩, hu, ht⟩ := Option.map_eq_some_iff.1 hs
    cases ht
    exact h.allocCacheBlock hu
  · have hsame : t = s := by
      split at hs
      · split at hs
        · cases hs
          rfl
        · obtain ⟨c', -, ht⟩ := Option.map_eq_some_iff.1 hs
          cases ht
          rfl
      · obtain ⟨c', -, ht⟩ := Option.map_eq_some_iff.1 hs
        cases ht
        rfl
    exact hsame ▸ h

theorem setInode (h : Made size s) (file : ℕ) {f : CacheInode → CacheInode}
    (hf : ∀ ci, (f ci).ino = ci.ino) : Made size (Mksfs.setInode s file f) :=
  h.same (setInode_same s file hf)

theorem setEntry (h : Made size s) (cb k ino : ℕ) : Made size (Mksfs.setEntry s cb k ino) :=
  h.same (setEntry_same s cb k ino)

theorem setStatic (h : Made size s) (entry : Bytes) : Made size { s with entry := entry } :=
  h.same ⟨rfl, rfl, rfl, rfl, rfl, rfl, rfl, rfl, fun _ => rfl, fun _ => rfl⟩

/-- **`append_block`.** -/
theorem appendBlock (h : Made size s) {file len ino : ℕ}
    (hs : Mksfs.appendBlock s file len ino = some t) : Made size t := by
  unfold Mksfs.appendBlock at hs
  split at hs
  · cases hs
  · obtain ⟨u, hu, rfl⟩ := Option.map_eq_some_iff.1 hs
    refine Made.setInode ?_ file fun _ => rfl
    unfold appendIno at hu
    dsimp only at hu
    split at hu
    · cases hu
      exact h.setInode file fun _ => rfl
    · split at hu
      · obtain ⟨⟨l1, ind, v⟩, hv, rfl⟩ := Option.map_eq_some_iff.1 hu
        refine Made.setEntry (Made.setInode ?_ _ ?_) _ _ _
        · exact h.updateCache hv
        · exact fun _ => rfl
      · split at hu
        · obtain ⟨⟨l2, ind2, v⟩, hv, hu⟩ := Option.bind_eq_some_iff.1 hu
          obtain ⟨⟨l1, ind, w⟩, hw, rfl⟩ := Option.map_eq_some_iff.1 hu
          have hv' := (h.updateCache hv).setInode file (f := fun ci =>
            { ci with l2 := some l2, inode := { ci.inode with dbIndirect := ind2 } }) fun _ => rfl
          refine Made.setEntry (Made.setInode (Made.setEntry ?_ _ _ _) _ ?_) _ _ _
          · exact hv'.updateCache hw
          · exact fun _ => rfl
        · cases hu
          exact h

/-- **`add_entry`.** -/
theorem addEntry (h : Made size s) {current file : ℕ} {name : List UInt8}
    (hs : Mksfs.addEntry s current file name = some t) : Made size t := by
  unfold Mksfs.addEntry at hs
  split at hs
  · obtain ⟨⟨ino, u⟩, hu, hs⟩ := Option.bind_eq_some_iff.1 hs
    obtain ⟨v, hv, hs⟩ := Option.bind_eq_some_iff.1 hs
    obtain ⟨w, hw, rfl⟩ := Option.map_eq_some_iff.1 hs
    have hm := (h.setStatic _).allocIno hu
    exact Made.setInode ((hm.1.writeBlock hv).appendBlock hw) file fun _ => rfl
  · cases hs

/-- **`create_sfs`.** -/
theorem createSfs {junk : Fin 32 → UInt8} {entry : Bytes} {image : ℕ → Bytes}
    (hs : Mksfs.createSfs junk entry image size = some s) : Made size s := by
  unfold Mksfs.createSfs at hs
  dsimp only at hs
  have hfits : (if 1024 * 512 < size / 4096 % 2 ^ 32 then 1024 * 512 else size / 4096 % 2 ^ 32) ≤
      524288 ∧ (if 1024 * 512 < size / 4096 % 2 ^ 32 then 1024 * 512 else size / 4096 % 2 ^ 32) ≤
        size / 4096 := by
    split <;> omega
  generalize (if 1024 * 512 < size / 4096 % 2 ^ 32 then 1024 * 512 else size / 4096 % 2 ^ 32) =
    ninos at hs hfits
  split at hs
  · cases hs
  · rename_i hlt
    obtain ⟨⟨ci, u⟩, hu, rfl⟩ := Option.map_eq_some_iff.1 hs
    obtain ⟨⟨ino, v⟩, hv, hu⟩ := Option.map_eq_some_iff.1 hu
    obtain ⟨rfl, rfl⟩ : sfsBlknRoot = ino ∧ _ = v := by
      rw [inoOrAlloc, if_pos (by decide), Option.some.injEq, Prod.mk.injEq] at hv
      exact hv
    cases hu
    refine Made.addInode
      ⟨hfits, ?_, ⟨rfl, rfl, ?_⟩, List.nodup_nil, fun c hc => ?_, fun i cb hcb => ?_,
      fun i ci hci => ?_⟩ 0 sfsBlknRoot sfsTypeDir (.inl rfl)
    · unfold pieces
      dsimp only
      unfold sfsBlknFreemap at hlt ⊢
      omega
    · dsimp only
      omega
    · cases hc
    · cases hcb
    · cases hci

end Made

theorem reach_made (h : (mksfsMachine size).Reach s) : Made size s := by
  refine h.preserved (fun s ⟨_, _, _, hs⟩ => Made.createSfs hs) fun s op t hi _ hs => ?_
  cases op with
  | allocIno =>
    obtain ⟨⟨b, u⟩, hu, rfl⟩ := Option.map_eq_some_iff.1 hs
    exact (hi.allocIno hu).1
  | allocCacheInode real type =>
    obtain ⟨⟨b, u⟩, hu, rfl⟩ := Option.map_eq_some_iff.1 hs
    obtain ⟨⟨ino, v⟩, hv, hu⟩ := Option.map_eq_some_iff.1 hu
    obtain ⟨hm, hino⟩ := hi.allocIno hv
    cases hu
    exact hm.addInode real ino type (.inr hino)
  | writeBlock data len ino => exact hi.writeBlock hs
  | appendBlock file len ino => exact hi.appendBlock hs
  | addEntry current file name => exact hi.addEntry hs

/-! ## The free map -/

/-- Bit `q` of an array of words. -/
def bitOf (data : ℕ → BitVec 32) (q : ℕ) : Bool := (data (q / 32)).getLsbD (q % 32)

theorem bitOf_setWordBit (data : ℕ → BitVec 32) (j q : ℕ) :
    bitOf (setWordBit data j) q = true ↔ q = j ∨ bitOf data q = true := by
  have hj : j % 32 < 32 := Nat.mod_lt _ (by omega)
  unfold bitOf setWordBit
  by_cases hw : q / 32 = j / 32
  · rw [hw, Function.update_self, BitVec.getLsbD_or, Bitmap.getLsbD_bitMask hj, Bool.or_eq_true,
      decide_eq_true_iff]
    have hq : q = j ↔ q % 32 = j % 32 := by omega
    rw [hq, or_comm]
  · rw [Function.update_of_ne hw]
    have hq : q ≠ j := fun e => hw (e ▸ rfl)
    exact ⟨.inr, fun h => h.resolve_left hq⟩

theorem bitOf_foldl {q : ℕ} : ∀ {l : List ℕ} {data : ℕ → BitVec 32},
    bitOf (l.foldl setWordBit data) q = true ↔ q ∈ l ∨ bitOf data q = true
  | [], data => by simp
  | j :: l, data => by
    rw [List.foldl_cons, bitOf_foldl, bitOf_setWordBit, List.mem_cons]
    tauto

theorem bitOf_zero (q : ℕ) : bitOf (fun _ => 0) q = false := by simp [bitOf]

/-- **A piece of the free map.** -/
theorem bitOf_freemapPiece {ninos nextIno i q : ℕ} (hq : q < 32768) (hn : nextIno ≤ ninos) :
    bitOf (freemapPiece ninos nextIno i) q = true ↔ nextIno ≤ i + q ∧ i + q < ninos := by
  unfold freemapPiece
  split
  · dsimp only
    rw [bitOf_foldl, List.mem_range'_1, bitOf_zero]
    split <;> split <;> simp only [Bool.false_eq_true, or_false] <;> omega
  · rw [bitOf_zero]
    simp only [Bool.false_eq_true, false_iff]
    omega

/-- The block with the `j`-th piece of the free map. -/
def pieceBlock (s : State) (j : ℕ) : Bytes :=
  Bytes.copy (fun _ => 0) 0 (Bytes.ofWords (freemapPiece s.ninos s.nextIno (32768 * j))) 4096

theorem word_pieceBlock {j k : ℕ} (hk : k < 1024) :
    (pieceBlock s j).word 4 (4 * k) = (freemapPiece s.ninos s.nextIno (32768 * j) k).toNat := by
  rw [pieceBlock, Bytes.word_copy (by omega) (by omega), Nat.sub_zero, Bytes.word_ofWords]

/-! ## Closing -/

/-- **The loop over the pieces** writes one block for each of them, from `SFS_BLKN_FREEMAP` on. -/
theorem closeFreemap_eq : ∀ (n : ℕ) {k : ℕ} {s : State}, k + n = pieces s →
    2 + pieces s ≤ s.ninos → closeFreemap s (32768 * k) (2 + k) =
      some (2 + pieces s, { s with image := fun b =>
        if 2 + k ≤ b ∧ b < 2 + pieces s then pieceBlock s (b - 2) else s.image b })
  | 0, k, s, hk, _ => by
    have hp : pieces s = (s.ninos + 32767) / 32768 := rfl
    have himg : (fun b => if 2 + k ≤ b ∧ b < 2 + pieces s then pieceBlock s (b - 2)
        else s.image b) = s.image := funext fun b => if_neg (by omega)
    rw [closeFreemap, if_neg (by omega), himg, show 2 + k = 2 + pieces s by omega]
  | n + 1, k, s, hk, hn => by
    have hp : pieces s = (s.ninos + 32767) / 32768 := rfl
    have hw :
        writeBlock s (Bytes.ofWords (freemapPiece s.ninos s.nextIno (32768 * k))) 4096 (2 + k) =
        some { s with image := Function.update s.image (2 + k) (pieceBlock s k) } := by
      rw [writeBlock, if_pos ⟨le_rfl, by omega⟩]
      rfl
    rw [closeFreemap, if_pos (by omega)]
    split
    · rename_i h
      rw [hw] at h
      cases h
    · rename_i t h
      rw [hw] at h
      cases h
      have hrec := closeFreemap_eq n (k := k + 1)
        (s := { s with image := Function.update s.image (2 + k) (pieceBlock s k) })
        (by change k + 1 + n = pieces s; omega) hn
      have himg : (fun b => if 2 + (k + 1) ≤ b ∧ b < 2 + pieces s then pieceBlock s (b - 2)
          else Function.update s.image (2 + k) (pieceBlock s k) b) =
          fun b => if 2 + k ≤ b ∧ b < 2 + pieces s then pieceBlock s (b - 2) else s.image b := by
        funext b
        by_cases hb : b = 2 + k
        · subst hb
          rw [if_neg (by omega), Function.update_self, if_pos (by omega), Nat.add_sub_cancel_left]
        · rw [Function.update_of_ne hb]
          exact if_congr (by omega) rfl rfl
      rw [show 32768 * k + 32768 = 32768 * (k + 1) by omega, show 2 + k + 1 = 2 + (k + 1) by omega]
      exact hrec.trans
        (congrArg (fun f => some (2 + pieces s, ({ s with image := f } : State))) himg)

/-- Blocks that are not in `B` are as they were. -/
def WritesIn (B : Set ℕ) (s t : State) : Prop :=
  ∃ image, t = { s with image := image } ∧ ∀ b ∉ B, image b = s.image b

theorem WritesIn.refl (B : Set ℕ) (s : State) : WritesIn B s s := ⟨s.image, rfl, fun _ _ => rfl⟩

theorem WritesIn.trans {B : Set ℕ} {u : State} (h : WritesIn B s t) (h' : WritesIn B t u) :
    WritesIn B s u := by
  obtain ⟨image, rfl, h⟩ := h
  obtain ⟨image', rfl, h'⟩ := h'
  exact ⟨image', rfl, fun b hb => (h' b hb).trans (h b hb)⟩

theorem writeBlock_in {B : Set ℕ} (d : Bytes) {len ino : ℕ} (hl : len ≤ 4096) (hi : ino < s.ninos)
    (hB : ino ∈ B) : ∃ t, writeBlock s d len ino = some t ∧ WritesIn B s t := by
  refine ⟨_, if_pos ⟨hl, hi⟩, _, rfl, fun b hb => ?_⟩
  rw [Function.update_of_ne]
  rintro rfl
  exact hb hB

theorem flushCacheBlocks_in {B : Set ℕ} (hB : ∀ b ∈ B, b < s.ninos) : ∀ {l : List ℕ} {t : State},
    WritesIn B s t → (∀ cb ∈ l, (s.cacheBlock cb).ino ∈ B) →
      ∃ u, flushCacheBlocks l t = some u ∧ WritesIn B s u
  | [], t, ht, _ => ⟨t, rfl, ht⟩
  | cb :: l, t, ht, hl => by
    have hcb := hl cb (by simp)
    obtain ⟨image, rfl, him⟩ := ht
    obtain ⟨u, hu, hwu⟩ := writeBlock_in (s := { s with image := image })
      (s.cacheBlock cb).cache le_rfl (hB _ hcb) hcb
    obtain ⟨v, hv, hwv⟩ := flushCacheBlocks_in hB (l := l) (WritesIn.trans ⟨image, rfl, him⟩ hwu)
      fun cb' h => hl cb' (by simp [h])
    exact ⟨v, by rw [flushCacheBlocks, flushCacheBlock, hu]; exact hv, hwv⟩

theorem flushCacheInodes_in {B : Set ℕ} (hB : ∀ b ∈ B, b < s.ninos) : ∀ {l : List ℕ} {t : State},
    WritesIn B s t → (∀ ci ∈ l, (s.cacheInode ci).ino ∈ B) →
      ∃ u, flushCacheInodes l t = some u ∧ WritesIn B s u
  | [], t, ht, _ => ⟨t, rfl, ht⟩
  | ci :: l, t, ht, hl => by
    have hci := hl ci (by simp)
    obtain ⟨image, rfl, him⟩ := ht
    obtain ⟨u, hu, hwu⟩ := writeBlock_in (s := { s with image := image })
      (s.cacheInode ci).inode.bytes (by omega : 68 ≤ 4096) (hB _ hci) hci
    obtain ⟨v, hv, hwv⟩ := flushCacheInodes_in hB (l := l) (WritesIn.trans ⟨image, rfl, him⟩ hwu)
      fun ci' h => hl ci' (by simp [h])
    exact ⟨v, by rw [flushCacheInodes, flushCacheInode, hu]; exact hv, hwv⟩

theorem flushChains_in {B : Set ℕ} (hB : ∀ b ∈ B, b < s.ninos)
    (hb : ∀ i, ∀ cb ∈ s.blocks i, (s.cacheBlock cb).ino ∈ B)
    (hc : ∀ i, ∀ ci ∈ s.inodes i, (s.cacheInode ci).ino ∈ B) : ∀ {l : List ℕ} {t : State},
    WritesIn B s t → ∃ u, flushChains l t = some u ∧ WritesIn B s u
  | [], t, ht => ⟨t, rfl, ht⟩
  | i :: l, t, ht => by
    obtain ⟨u, hu, hwu⟩ := flushCacheBlocks_in hB (l := t.blocks i) ht (by
      obtain ⟨image, rfl, -⟩ := ht
      exact hb i)
    obtain ⟨v, hv, hwv⟩ := flushCacheInodes_in hB (l := u.inodes i) hwu (by
      obtain ⟨image, rfl, -⟩ := hwu
      exact hc i)
    obtain ⟨w, hw, hww⟩ := flushChains_in hB hb hc hwv
    refine ⟨w, ?_, hww⟩
    rw [flushChains, hu, Option.bind_some, hv]
    exact hw

/-- `s` with the free map on the disk. -/
def withFreemap (s : State) : State :=
  { s with
    image := fun b => if 2 + 0 ≤ b ∧ b < 2 + pieces s then pieceBlock s (b - 2) else s.image b }

/-- `s` with the superblock on the disk as well. -/
def withSuper (s : State) : State :=
  { withFreemap s with
    image := Function.update (withFreemap s).image sfsBlknSuper
      (Bytes.copy (fun _ => 0) 0 s.super.bytes 44) }

/-- **`close_sfs`** writes the superblock and the free map, and nothing on top of them. -/
theorem closeSfs_spec (h : Made size s) : ∃ t, closeSfs s = some (2 + pieces s, t) ∧
    t.image sfsBlknSuper = Bytes.copy (fun _ => 0) 0 s.super.bytes 44 ∧
    ∀ j < pieces s, t.image (2 + j) = pieceBlock s j := by
  obtain ⟨hn1, hn2⟩ := h.next
  have hclose : closeFreemap s (32768 * 0) (2 + 0) = some (2 + pieces s, withFreemap s) :=
    closeFreemap_eq (pieces s) (by omega) (by omega)
  have hsup : writeBlock (withFreemap s) s.super.bytes 44 sfsBlknSuper = some (withSuper s) :=
    if_pos ⟨by omega, by change 0 < s.ninos; omega⟩
  -- the blocks and inodes in memory lie behind the free map, or in the root's block
  have hblocks : ∀ i, ∀ cb ∈ s.blocks i,
      2 + pieces s ≤ (s.cacheBlock cb).ino ∧ (s.cacheBlock cb).ino < s.ninos := fun i cb hcb => by
    obtain ⟨h1, h2⟩ := h.allocated _ (h.blocks i cb hcb).2
    exact ⟨h1, by omega⟩
  have hinodes : ∀ i, ∀ ci ∈ s.inodes i, (s.cacheInode ci).ino = sfsBlknRoot ∨
      2 + pieces s ≤ (s.cacheInode ci).ino ∧ (s.cacheInode ci).ino < s.ninos := fun i ci hci => by
    obtain hr | ha := (h.inodes i ci hci).2
    · exact .inl hr
    · obtain ⟨h1, h2⟩ := h.allocated _ ha
      exact .inr ⟨h1, by omega⟩
  obtain ⟨t, ht, image, hti, him⟩ := flushChains_in (s := withSuper s)
    (B := {b | b = sfsBlknRoot ∨ 2 + pieces s ≤ b ∧ b < s.ninos}) (l := List.range 1024)
    (fun b hb => by
      change b < s.ninos
      obtain rfl | hb := hb
      · unfold sfsBlknRoot
        omega
      · exact hb.2)
    (fun i cb hcb => .inr (hblocks i cb hcb)) (fun i ci hci => hinodes i ci hci)
    (WritesIn.refl _ (withSuper s))
  have himage : ∀ b, b = sfsBlknSuper ∨ 2 ≤ b ∧ b < 2 + pieces s →
      t.image b = (withSuper s).image b := fun b hb => by
    rw [hti]
    refine him b ?_
    unfold sfsBlknSuper at hb
    rintro (hr | ⟨h1, -⟩)
    · unfold sfsBlknRoot at hr
      omega
    · omega
  refine ⟨t, ?_, ?_, fun j hj => ?_⟩
  · change (closeFreemap s (32768 * 0) (2 + 0)).bind _ = _
    rw [hclose, Option.bind_some]
    change (writeBlock (withFreemap s) s.super.bytes 44 sfsBlknSuper).bind _ = _
    rw [hsup, Option.bind_some, ht]
    rfl
  · rw [himage _ (.inl rfl)]
    change Function.update (withFreemap s).image sfsBlknSuper
      (Bytes.copy (fun _ => 0) 0 s.super.bytes 44) sfsBlknSuper = _
    rw [Function.update_self]
  · rw [himage _ (.inr (by omega))]
    change Function.update (withFreemap s).image sfsBlknSuper _ (2 + j) = _
    rw [Function.update_of_ne (by unfold sfsBlknSuper; omega)]
    change (if 2 + 0 ≤ 2 + j ∧ 2 + j < 2 + pieces s then pieceBlock s (2 + j - 2)
      else s.image (2 + j)) = _
    rw [if_pos (by omega), Nat.add_sub_cancel_left]

/-! ## What the kernel reads -/

/-- The kernel's superblock is the program's. -/
theorem super_imageDev (h : Made size s) (h0 : t.image sfsBlknSuper =
    Bytes.copy (fun _ => 0) 0 s.super.bytes 44) : (imageDev size t.image).super = s.super := by
  obtain ⟨hm, hb, hu⟩ := h.super
  have hf := h.fits.1
  have hmg : sfsMagic < 2 ^ 32 := by decide
  unfold BlockDev.super
  change SfsSuper.ofBytes (t.image sfsBlknSuper) = s.super
  rw [h0, SfsSuper.ofBytes_bytes, Nat.mod_eq_of_lt (by omega), Nat.mod_eq_of_lt (by omega),
    Nat.mod_eq_of_lt (by omega)]

/-- **A bit of the kernel's free map** is one of a piece. -/
theorem bit_imageDev (h : Made size s) (hs : (imageDev size t.image).super = s.super)
    (hp : ∀ j < pieces s, t.image (2 + j) = pieceBlock s j)
    (hb : b < (imageDev size t.image).super.freemapBits) :
    (imageDev size t.image).freemap.bit b = true ↔ s.nextIno ≤ b ∧ b < s.ninos := by
  have hblk : (imageDev size t.image).super.blocks = s.ninos := by rw [hs, h.super.2.1]
  have hn : (imageDev size t.image).super.freemapBlocks = pieces s := by
    rw [SfsSuper.freemapBlocks, hblk]
    rfl
  have hfits := h.fits.1
  have hj : b / 32768 < pieces s := by
    unfold SfsSuper.freemapBits at hb
    rw [hblk] at hb
    unfold pieces
    omega
  have hq : b % 32768 < 32768 := Nat.mod_lt _ (by omega)
  rw [Bitmap.bit]
  change
    ((if 0 ≤ b / 32 / 1024 ∧ b / 32 / 1024 < 0 + (imageDev size t.image).super.freemapBlocks then
    BitVec.ofNat 32 ((t.image (2 + (b / 32 / 1024 - 0))).word 4 (4 * (b / 32 % 1024))) else _
      : BitVec 32).getLsbD (b % 32)) = true ↔ _
  rw [show b / 32 / 1024 = b / 32768 by omega, hn, Nat.zero_add, if_pos ⟨Nat.zero_le _, hj⟩,
    Nat.sub_zero, hp _ hj, word_pieceBlock (by omega), BitVec.ofNat_toNat, BitVec.setWidth_eq,
    show b / 32 % 1024 = b % 32768 / 32 by omega, show b % 32 = b % 32768 % 32 by omega]
  change bitOf (freemapPiece s.ninos s.nextIno (32768 * (b / 32768))) (b % 32768) = true ↔ _
  rw [bitOf_freemapPiece hq h.next.2, Nat.div_add_mod]

/-- The image that `close_sfs` leaves. -/
theorem closeSfs_sound (hm : Made size s) :
    ∃ stop t, closeSfs s = some (stop, t) ∧ ImageSound size s stop (imageDev size t.image) := by
  obtain ⟨t, hclose, h0, hp⟩ := closeSfs_spec hm
  have hs := super_imageDev hm h0
  have hblk : (imageDev size t.image).super.blocks = s.ninos := by rw [hs, hm.super.2.1]
  have hbit := fun b hb => bit_imageDev (b := b) hm hs hp hb
  obtain ⟨hf1, hf2⟩ := hm.fits
  obtain ⟨hn1, hn2⟩ := hm.next
  have hpieces : pieces s = (imageDev size t.image).super.freemapBlocks := by
    rw [SfsSuper.freemapBlocks, hblk]
    rfl
  have hbits : s.ninos ≤ (imageDev size t.image).super.freemapBits := by
    rw [SfsSuper.freemapBits, hblk]
    omega
  have hfree : (imageDev size t.image).freemap.freeBits = Finset.Ico s.nextIno s.ninos := by
    ext b
    rw [Bitmap.freeBits, Finset.mem_filter, Finset.mem_range, Finset.mem_Ico]
    change b < (imageDev size t.image).super.freemapBits ∧ _ ↔ _
    constructor
    · rintro ⟨hb, hbt⟩
      exact (hbit b hb).1 hbt
    · intro hb
      have hlt : b < (imageDev size t.image).super.freemapBits := by omega
      exact ⟨hlt, (hbit b hlt).2 hb⟩
  have hunused : (imageDev size t.image).super.unusedBlocks =
      (imageDev size t.image).freemap.freeBits.card := by
    rw [hfree, Nat.card_Ico, hs]
    have := hm.super.2.2
    omega
  refine ⟨2 + pieces s, t, hclose, ?_, ⟨hblk, hblk ▸ hf2⟩, by rw [hpieces]; rfl, fun b hb => ?_,
    hunused, ⟨hm.nodup, fun b hb => ?_⟩, fun time _ => ⟨?_, fun _ => ⟨hunused, fun b hb hbt => ?_⟩⟩⟩
  · rw [hs]
    exact hm.super.1
  · rw [hblk]
    exact hbit b hb
  · obtain ⟨h1, h2⟩ := hm.allocated b hb
    rw [hblk]
    unfold sfsBlknSuper sfsBlknRoot sfsBlknFreemap
    omega
  · rw [hblk]
    omega
  · obtain ⟨h1, h2⟩ := (hbit b hb).1 hbt
    rw [hblk, ← hpieces]
    unfold sfsBlknFreemap
    omega

/-- **The image is consistent**: after any run of the program that does not run out of space,
    `close_sfs` ends, and leaves the image that the kernel wants. -/
theorem image_consistent (h : (mksfsMachine size).Reach s) :
    ∃ stop t, closeSfs s = some (stop, t) ∧ ImageSound size s stop (imageDev size t.image) :=
  closeSfs_sound (reach_made h)

/-- **The kernel mounts the image**, on a device where nothing fails, and can allocate and free
    blocks on it. -/
theorem made_image_mounts (h : (mksfsMachine size).Reach s) (ms : MountState) :
    ∃ stop t super m ms', closeSfs s = some (stop, t) ∧
      doMount (imageDev size t.image) ms = some (.ok (super, m), ms') ∧ Spaced m := by
  obtain ⟨stop, t, hclose, hi⟩ := closeSfs_sound (reach_made h)
  obtain ⟨hb, hle⟩ := hi.blocks
  obtain ⟨hf1, hf2⟩ := (reach_made h).fits
  obtain ⟨hn1, hn2⟩ := (reach_made h).next
  have hp : pieces s = (s.ninos + 32767) / 32768 := rfl
  have hle' : (imageDev size t.image).super.blocks ≤ size / 4096 := hle
  have hc : (imageDev size t.image).Checked ms.time :=
    ⟨rfl, rfl, rfl, ⟨by change 0 < size / 4096; omega, rfl⟩, hi.magic, hle, rfl⟩
  have hn : (imageDev size t.image).super.freemapBits ≠ 0 :=
    mt (freemapBits_eq_zero_iff _).1 (by omega)
  have hl : (imageDev size t.image).Loads ms.time := ⟨rfl, rfl, fun k hk => by
    refine ⟨?_, rfl⟩
    rw [SfsSuper.freemapBlocks, hb] at hk
    unfold sfsBlknFreemap
    change 2 + k < size / 4096
    omega⟩
  obtain ⟨time, hm⟩ := doMount_ok hc hn hl hi.unused.symm
  obtain ⟨-, hfree⟩ := (hi.sound ms.time hc).2 hl
  exact ⟨stop, t, _, _, _, hclose, hm, spaced_mountedSfs hn hi.unused hfree time⟩

instance (s : State) : DecidablePred (Op.Legal s)
  | .writeBlock _ _ ino => inferInstanceAs (Decidable (ino ∈ s.allocated))
  | .appendBlock file _ _ => inferInstanceAs (Decidable (file < s.inodeCount))
  | .addEntry current file _ =>
    inferInstanceAs (Decidable (current < s.inodeCount ∧ file < s.inodeCount))
  | .allocIno | .allocCacheInode _ _ => inferInstanceAs (Decidable True)

instance (size : ℕ) (s : State) (op : Op) : Decidable ((mksfsMachine size).Legal s op) :=
  inferInstanceAs (Decidable (op.Legal s))

/-- A file of ten bytes is put into an image of eight blocks. -/
theorem image_consistent_file : ∃ s stop t, s.allocated = [5, 4, 3] ∧
    closeSfs s = some (stop, t) ∧ ImageSound 32768 s stop (imageDev 32768 t.image) := by
  have hrun : ((createSfs (fun _ => 0) (fun _ => 0) (fun _ _ => 0) 32768).bind fun s =>
      ((mksfsMachine 32768).run s [.allocCacheInode 7 sfsTypeFile, .allocIno,
        .writeBlock (fun _ => 97) 10 4, .appendBlock 1 10 4, .addEntry 0 1 [97]]).bind fun t =>
          if t.allocated = [5, 4, 3] then some () else none) = some () := by decide +kernel
  obtain ⟨s, hs, hrun⟩ := Option.bind_eq_some_iff.1 hrun
  obtain ⟨t, ht, hif⟩ := Option.bind_eq_some_iff.1 hrun
  split at hif
  · rename_i ha
    have hinit : (mksfsMachine 32768).Init s := ⟨_, _, _, hs⟩
    obtain ⟨stop, u, hu, hi⟩ := image_consistent ((Machine.Reach.init hinit).run ht)
    exact ⟨t, stop, u, ha, hu, hi⟩
  · cases hif

end

end Mksfs

end Ucore
