/-
  What the operations on files keep.

  * `Whole I s`: every file of `I` has its blocks;
  * `Kept dev I E s t`: the accounts are right in `t`, but for blocks that could not be cleared, and
    if the files have their blocks in `s`, they have them in `t`;
  * `ioNolock_kept`, `truncfile_kept`, `fsync_kept`, `loadInode_kept`, `reclaim_kept`: so it is
    whenever one of the operations returns, with or without an error.
-/
import Ucore.Fs.BlockMap

namespace Ucore

/-- Every inode of `I` has a block for each of its entries, as far as the map goes. -/
def Whole (I : Finset ℕ) (s : Sfs) : Prop :=
  ∀ i ∈ I, ∀ k < 1036, k < (s.dinOf i).blocks → s.bmap i k ≠ 0

structure Kept (dev : Device) (I : Finset ℕ) (E : Set ℕ) (s t : Sfs) : Prop where
  acct : ∃ E', E ⊆ E' ∧ (dev.Clears → E' = E) ∧ Acct I E' t
  whole : Whole I s → Whole I t

variable {dev : Device} {I : Finset ℕ} {E : Set ℕ} {s t u : Sfs} {i j k b n : ℕ}

namespace Kept

theorem of_acct (h : Acct I E t) (hw : Whole I s → Whole I t) : Kept dev I E s t :=
  ⟨⟨E, subset_rfl, fun _ => rfl, h⟩, hw⟩

theorem refl (h : Acct I E s) : Kept dev I E s s := of_acct h id

/-- One operation after another. -/
theorem trans (h : Kept dev I E s t) (h' : ∀ E', Acct I E' t → Kept dev I E' t u) :
    Kept dev I E s u := by
  obtain ⟨⟨E₁, h1, h2, h3⟩, hw⟩ := h
  obtain ⟨⟨E₂, g1, g2, g3⟩, gw⟩ := h' E₁ h3
  exact ⟨⟨E₂, h1.trans g1, fun hd => (g2 hd).trans (h2 hd), g3⟩, fun h => gw (hw h)⟩

theorem wait (h : Kept dev I E s t) (n : ℕ) : Kept dev I E s (t.wait n) :=
  h.trans fun _ ha => of_acct (ha.wait n) id

theorem of_failed (h : Failed dev I E s t) (ha : Acct I E s) : Kept dev I E s t :=
  ⟨h.acct, fun hw i hi k hk hb => by
    rw [h.same.dinOf ha hi] at hb
    rw [h.same.bmap ha hi]
    exact hw i hi k hk hb⟩

end Kept

/-! ## Block maps -/

theorem Loaded.whole (h : Loaded I E s t i k b) (ha : Acct I E s) (hc : s.cached i = true)
    (hw : Whole I s) (hle : k ≤ (s.din i).blocks) : Whole I t := by
  intro j hj k' hk' hb
  rw [h.mapped.bmap j hj k' hk']
  split
  · exact h.mapped.ne_zero
  · rename_i hne
    refine hw j hj k' hk' ?_
    by_cases hji : j = i
    · subst hji
      rw [Acct.dinOf_of_cached (by rw [h.mapped.cached, hc]), h.blocks] at hb
      rw [Acct.dinOf_of_cached hc]
      have : k' ≠ k := fun e => hne ⟨rfl, e⟩
      omega
    · rwa [h.mapped.dinOf ha hj hji] at hb

theorem bmapLoad_kept (h : Acct I E s) (hc : s.cached i = true) {r : Except Errno ℕ}
    (hr : bmapLoad dev i k s = some (r, t)) : Kept dev I E s t ∧ t.cached = s.cached := by
  obtain ⟨hle, -, ⟨b, -, hl⟩ | ⟨e, -, hf, -⟩⟩ := bmapLoad_spec h hc hr
  · exact ⟨.of_acct hl.acct fun hw => hl.whole h hc hw hle, hl.mapped.cached⟩
  · exact ⟨.of_failed hf h, hf.same.cached⟩

theorem Unmapped.dinOf (h : Unmapped I E s t i k) (ha : Acct I E s) (hj : j ∈ I) (hji : j ≠ i) :
    t.dinOf j = s.dinOf j := by
  rw [Sfs.dinOf, Sfs.dinOf, Sfs.din, h.sin j hji, h.cached,
    h.disk j (ha.inode_used hj) fun l hl => ha.indirect_ne_inode hl hj]
  rfl

theorem bmapTruncate_kept (h : Acct I E s) (hc : s.cached i = true) {r : Except Errno Unit}
    (hr : bmapTruncate dev i s = some (r, t)) : Kept dev I E s t ∧ t.cached = s.cached := by
  obtain ⟨h0, ⟨-, hu, hb⟩ | ⟨e, n, -, -, rfl⟩⟩ := bmapTruncate_spec h hc hr
  · refine ⟨.of_acct hu.acct fun hw j hj k' hk' hlt => ?_, hu.cached⟩
    rw [hu.bmap j hj k' hk']
    by_cases hji : j = i
    · subst hji
      rw [Acct.dinOf_of_cached (by rw [hu.cached, hc]), hb] at hlt
      rw [if_neg (by omega)]
      refine hw j hj k' hk' ?_
      rw [Acct.dinOf_of_cached hc]
      omega
    · rw [if_neg fun e => hji e.1]
      rw [hu.dinOf h hj hji] at hlt
      exact hw j hj k' hk' hlt
  · exact ⟨(Kept.refl h).wait n, rfl⟩

/-! ## Reading and writing -/

/-- **A piece is moved** to or from a block: `size` bytes from `blkoff` on, and nothing else. -/
theorem movePiece_spec {write : Bool} {p : Piece} {buf : Bytes} {alen : ℕ}
    (hwh : p.whole = true → p.blkoff = 0 ∧ p.size = 4096) {r : Except Errno Bytes}
    (hr : movePiece dev write p b buf alen s = some (r, t)) :
    (∃ n, write = false ∧ t = s.wait n ∧
      r = .ok (buf.copy alen ((s.disk b).from' p.blkoff) p.size)) ∨
    (∃ n m, write = true ∧ r = .ok buf ∧ t = (s.wait n).setBlock b m ∧ ∀ q < 4096,
      t.disk b q = if p.blkoff ≤ q ∧ q < p.blkoff + p.size then buf (alen + (q - p.blkoff))
        else s.disk b q) ∨
    ∃ e n, r = .error e ∧ dev.Faulty ∧ t = s.wait n := by
  cases write <;> cases hwb : p.whole <;> simp only [movePiece, hwb] at hr
  · -- `sfs_rbuf`
    obtain ⟨m, v, h₁, hr⟩ | ⟨e, h₁, rfl⟩ := Code.bind_eq_some.1 hr
    · obtain ⟨rfl, hm | ⟨e, he, -⟩⟩ := rbuf_eq_some h₁
      · cases hm
        obtain ⟨rfl, rfl⟩ := Code.pure_eq_some.1 hr
        exact .inl ⟨1, rfl, rfl, rfl⟩
      · cases he
    · obtain ⟨rfl, hm | ⟨e', -, hf⟩⟩ := rbuf_eq_some h₁
      · cases hm
      · exact .inr (.inr ⟨e, 1, rfl, hf, rfl⟩)
  · -- `sfs_rblock`
    obtain ⟨h0, hs⟩ := hwh hwb
    obtain ⟨m, v, h₁, hr⟩ | ⟨e, h₁, rfl⟩ := Code.bind_eq_some.1 hr
    · obtain ⟨rfl, hm | ⟨e, he, -⟩⟩ := readBlock_eq_some h₁
      · cases hm
        obtain ⟨rfl, rfl⟩ := Code.pure_eq_some.1 hr
        refine .inl ⟨1, rfl, rfl, ?_⟩
        rw [h0, hs, show (s.disk b).from' 0 = s.disk b from funext fun q => by
          rw [Bytes.from', Nat.zero_add]]
      · cases he
    · obtain ⟨rfl, hm | ⟨e', -, hf⟩⟩ := readBlock_eq_some h₁
      · cases hm
      · exact .inr (.inr ⟨e, 1, rfl, hf, rfl⟩)
  · -- `sfs_wbuf`
    obtain ⟨a, v, h₁, hr⟩ | ⟨e, h₁, rfl⟩ := Code.bind_eq_some.1 hr
    · obtain ⟨-, rfl⟩ | ⟨e, n, he, -⟩ := wbuf_eq_some h₁
      · obtain ⟨rfl, rfl⟩ := Code.pure_eq_some.1 hr
        refine .inr (.inl ⟨2, _, rfl, rfl, rfl, fun q hq => ?_⟩)
        rw [Sfs.disk_setBlock, if_pos rfl, Bytes.copy_of_mem (by omega) (by omega), Nat.sub_zero]
        rfl
      · cases he
    · obtain ⟨he, -⟩ | ⟨e', n, -, hf, rfl⟩ := wbuf_eq_some h₁
      · cases he
      · exact .inr (.inr ⟨e, n, rfl, hf, rfl⟩)
  · -- `sfs_wblock`
    obtain ⟨h0, hs⟩ := hwh hwb
    obtain ⟨a, v, h₁, hr⟩ | ⟨e, h₁, rfl⟩ := Code.bind_eq_some.1 hr
    · obtain ⟨-, rfl⟩ | ⟨e, he, -⟩ := writeBlock_eq_some h₁
      · obtain ⟨rfl, rfl⟩ := Code.pure_eq_some.1 hr
        refine .inr (.inl ⟨1, _, rfl, rfl, rfl, fun q hq => ?_⟩)
        rw [Sfs.disk_setBlock, if_pos rfl, Bytes.copy_of_mem (by omega) (by omega), h0, hs,
          if_pos ⟨by omega, by omega⟩]
        rfl
      · cases he
    · obtain ⟨he, -⟩ | ⟨e', he, hf, rfl⟩ := writeBlock_eq_some h₁
      · cases he
      · exact .inr (.inr ⟨e, 1, rfl, ⟨_, _, by rw [hf]; simp⟩, rfl⟩)

/-- A block of a file is written: the maps are as they were. -/
theorem Acct.bmap_setBlock_data (h : Acct I E s) (m : Bytes) (hi : i ∈ I) (hk : k < 1036)
    (h0 : s.bmap i k ≠ 0) (hj : j ∈ I) {k' : ℕ} :
    (s.setBlock (s.bmap i k) m).bmap j k' = s.bmap j k' := by
  rw [Sfs.bmap, dinOf_setBlock m (h.data_ne_inode hi hk hj)]
  refine DiskInode.entry_congr rfl rfl fun _ => ?_
  rw [Sfs.disk_setBlock, if_neg (h.data_ne_indirect hi hk hj h0)]

theorem Acct.setBlock_kept (h : Acct I E s) (m : Bytes) (hi : i ∈ I) (hk : k < 1036)
    (h0 : s.bmap i k ≠ 0) : Kept dev I E s (s.setBlock (s.bmap i k) m) :=
  .of_acct (h.setBlock_data m hi hk h0) fun hw j hj k' hk' hb => by
    rw [h.bmap_setBlock_data m hi hk h0 hj]
    rw [dinOf_setBlock m (h.data_ne_inode hi hk hj)] at hb
    exact hw j hj k' hk' hb

/-! ### Pieces -/

/-- The pieces cover the range from `a` to `b`, block after block. -/
def Tiles : ℕ → List Piece → ℕ → Prop
  | a, [], b => a = b
  | a, p :: ps, b =>
    (p.blkno = a / 4096 ∧ p.blkoff = a % 4096 ∧ 0 < p.size ∧ p.blkoff + p.size ≤ 4096 ∧
      (p.whole = true → p.blkoff = 0 ∧ p.size = 4096)) ∧
    (ps ≠ [] → p.blkoff + p.size = 4096) ∧ Tiles (a + p.size) ps b

theorem Tiles.le : ∀ {ps : List Piece} {a b : ℕ}, Tiles a ps b → a ≤ b
  | [], _, _, h => Nat.le_of_eq h
  | _ :: _, _, _, h => le_trans (Nat.le_add_right _ _) h.2.2.le

theorem tiles_tail {size : ℕ} (hs : size < 4096) : ∀ (nblks blkno : ℕ),
    Tiles (blkno * 4096) (tailPieces blkno nblks size) ((blkno + nblks) * 4096 + size)
  | 0, blkno => by
    rw [tailPieces, List.range_zero, List.map_nil, List.nil_append]
    split
    · exact ⟨⟨by dsimp only; omega, by dsimp only; omega, by dsimp only; omega,
        by dsimp only; omega, by simp⟩, by simp, by dsimp only [Tiles]; omega⟩
    · simp only [Tiles]
      omega
  | nblks + 1, blkno => by
    have ih := tiles_tail hs nblks (blkno + 1)
    have hcons : tailPieces blkno (nblks + 1) size =
        ⟨blkno, 0, 4096, true⟩ :: tailPieces (blkno + 1) nblks size := by
      simp only [tailPieces, List.range_succ_eq_map, List.map_cons, List.map_map, List.cons_append,
        Nat.add_zero, Function.comp_def, Nat.succ_eq_add_one]
      rw [show blkno + (nblks + 1) = blkno + 1 + nblks by omega]
      simp only [Nat.add_comm, Nat.add_left_comm]
    rw [hcons]
    refine ⟨⟨by dsimp only; omega, by dsimp only; omega, by dsimp only; omega, le_rfl, by simp⟩,
      fun _ => rfl, ?_⟩
    rw [show blkno * 4096 + 4096 = (blkno + 1) * 4096 by omega,
      show blkno + (nblks + 1) = blkno + 1 + nblks by omega]
    exact ih

/-- **The pieces of a transfer** are the range from `offset` to `endpos`. -/
theorem ioPieces_tiles {offset endpos : ℕ} (h : offset < endpos) :
    Tiles offset (ioPieces offset endpos) endpos := by
  have hs : endpos % 4096 < 4096 := Nat.mod_lt _ (by omega)
  unfold ioPieces
  dsimp only
  split
  · split
    · exact ⟨⟨rfl, rfl, by dsimp only; omega, by dsimp only; omega, by simp⟩, by simp,
        by dsimp only [Tiles]; omega⟩
    · have ht := tiles_tail hs (endpos / 4096 - offset / 4096 - 1) (offset / 4096 + 1)
      rw [show (offset / 4096 + 1 + (endpos / 4096 - offset / 4096 - 1)) * 4096 + endpos % 4096 =
        endpos by omega] at ht
      refine ⟨⟨rfl, rfl, by dsimp only; omega, by dsimp only; omega, by simp⟩,
        fun _ => by dsimp only; omega, ?_⟩
      rwa [show offset + (4096 - offset % 4096) = (offset / 4096 + 1) * 4096 by omega]
  · have ht := tiles_tail hs (endpos / 4096 - offset / 4096) (offset / 4096)
    rw [show (offset / 4096 + (endpos / 4096 - offset / 4096)) * 4096 + endpos % 4096 =
      endpos by omega] at ht
    have ho : offset / 4096 * 4096 = offset := by omega
    rwa [ho] at ht

/-- The pieces lie in their blocks. -/
def PiecesOk (ps : List Piece) : Prop :=
  ∀ p ∈ ps, p.whole = true → p.blkoff = 0 ∧ p.size = 4096

theorem Tiles.pieces : ∀ {ps : List Piece} {a b : ℕ}, Tiles a ps b → PiecesOk ps
  | [], _, _, _ => fun p hp => by cases hp
  | q :: ps, a, b, h => fun p hp => by
    obtain rfl | hp := List.mem_cons.1 hp
    · exact h.1.2.2.2.2
    · exact h.2.2.pieces p hp

theorem ioLoop_kept {write : Bool} : ∀ {ps : List Piece} {buf : Bytes} {alen : ℕ} {s : Sfs}
    {E : Set ℕ}, PiecesOk ps → Acct I E s → s.cached i = true →
    ∀ {r : Except Errno IoResult}, ioLoop dev i write ps buf alen s = some (r, t) →
      Kept dev I E s t ∧ t.cached = s.cached
  | [], buf, alen, s, E, _, h, _, r, hr => by
    obtain ⟨-, rfl⟩ := Code.pure_eq_some.1 hr
    exact ⟨.refl h, rfl⟩
  | p :: ps, buf, alen, s, E, hp, h, hc, r, hr => by
    have hi := h.cached i hc
    have hp' := hp p (by simp)
    have hps : PiecesOk ps := fun q hq => hp q (by simp [hq])
    rw [ioLoop, Code.attempt_bind_eq_some] at hr
    obtain ⟨r₁, v, h₁, hr⟩ := hr
    obtain ⟨hkv, hcv⟩ := bmapLoad_kept h hc h₁
    obtain ⟨-, hk, ⟨b, rfl, hl⟩ | ⟨e, rfl, -⟩⟩ := bmapLoad_spec h hc h₁
    · rw [Code.attempt_bind_eq_some] at hr
      obtain ⟨r₂, w, h₂, hr⟩ := hr
      have hb : v.bmap i p.blkno = b := by rw [hl.mapped.bmap i hi _ hk, if_pos ⟨rfl, rfl⟩]
      have hkw : Kept dev I E s w ∧ w.cached = s.cached := by
        obtain ⟨n, -, rfl, -⟩ | ⟨n, m, -, -, rfl, -⟩ | ⟨e, n, -, -, rfl⟩ :=
          movePiece_spec hp' h₂
        · exact ⟨hkv.wait n, hcv⟩
        · refine ⟨(hkv.wait n).trans fun E' ha => ?_, hcv⟩
          have h0 : (v.wait n).bmap i p.blkno ≠ 0 := by
            change v.bmap i p.blkno ≠ 0
            rw [hb]
            exact hl.mapped.ne_zero
          have hset :
              Kept dev I E' (v.wait n) ((v.wait n).setBlock ((v.wait n).bmap i p.blkno) m) :=
            ha.setBlock_kept m hi hk h0
          rwa [show (v.wait n).bmap i p.blkno = b from hb] at hset
        · exact ⟨hkv.wait n, hcv⟩
      cases r₂ with
      | error e =>
        obtain ⟨-, rfl⟩ := Code.pure_eq_some.1 hr
        exact hkw
      | ok buf' =>
        have hcw : w.cached i = true := by rw [hkw.2, hc]
        obtain ⟨E', -, -, ha⟩ := hkw.1.acct
        refine ⟨hkw.1.trans fun E' ha => (ioLoop_kept hps ha hcw hr).1, ?_⟩
        rw [(ioLoop_kept hps ha hcw hr).2, hkw.2]
    · obtain ⟨-, rfl⟩ := Code.pure_eq_some.1 hr
      exact ⟨hkv, hcv⟩

/-- Fields of the inode in memory other than its slots, blocks and `nlinks` are written. -/
theorem Acct.setSin_kept (h : Acct I E s) {f : SfsInode → SfsInode} (hc : s.cached i = true)
    (hl : (f (s.sin i)).din.nlinks = (s.din i).nlinks)
    (h1 : (f (s.sin i)).din.direct = (s.din i).direct)
    (h2 : (f (s.sin i)).din.indirect = (s.din i).indirect)
    (h3 : (f (s.sin i)).din.blocks = (s.din i).blocks)
    (hn : (f (s.sin i)).dirty = false → (s.sin i).dirty = false) :
    Kept dev I E s (s.setSin i f) := by
  refine .of_acct (h.setSin_same hc hl h1 h2 fun hd => ⟨hn hd, h3.ge⟩) fun hw j hj k hk hb => ?_
  rw [bmap_setSin hc h1 h2]
  refine hw j hj k hk ?_
  rw [dinOf_setSin hc] at hb
  split at hb
  · rename_i hji
    subst hji
    rwa [dinOf_of_cached hc, ← h3]
  · exact hb

/-- **`sfs_io_nolock`.** -/
theorem ioNolock_kept {buf : Bytes} {offset : ℤ} {alen : ℕ} {write : Bool} (h : Acct I E s)
    (hc : s.cached i = true) {r : Except Errno IoResult}
    (hr : ioNolock dev i buf offset alen write s = some (r, t)) :
    Kept dev I E s t ∧ t.cached = s.cached := by
  simp only [ioNolock, Code.get_bind_eq_some, Code.assert_bind_eq_some] at hr
  obtain ⟨-, hr⟩ := hr
  split at hr
  · obtain ⟨-, rfl⟩ := Code.pure_eq_some.1 hr
    exact ⟨.refl h, rfl⟩
  · rename_i hchk
    simp only [not_or, not_lt, not_le] at hchk
    split at hr
    · obtain ⟨-, rfl⟩ := Code.pure_eq_some.1 hr
      exact ⟨.refl h, rfl⟩
    · split at hr
      · split at hr
        · obtain ⟨-, rfl⟩ := Code.pure_eq_some.1 hr
          exact ⟨.refl h, rfl⟩
        · exact ioLoop_kept (ioPieces_tiles (by omega)).pieces h hc hr
      · obtain ⟨out, v, h₁, hr⟩ | ⟨e, h₁, -⟩ := Code.bind_eq_some.1 hr
        · obtain ⟨hk, hcv⟩ := ioLoop_kept (ioPieces_tiles (by omega)).pieces h hc h₁
          rw [Code.get_bind_eq_some] at hr
          split at hr
          · rw [Code.modify_bind_eq_some] at hr
            obtain ⟨-, rfl⟩ := Code.pure_eq_some.1 hr
            refine ⟨hk.trans fun E' ha => ?_, hcv⟩
            exact ha.setSin_kept (by rw [hcv, hc]) rfl rfl rfl rfl (fun hd => by cases hd)
          · obtain ⟨-, rfl⟩ := Code.pure_eq_some.1 hr
            exact ⟨hk, hcv⟩
        · exact ioLoop_kept (ioPieces_tiles (by omega)).pieces h hc h₁

/-! ## Truncation -/

theorem growLoop_kept : ∀ {n nblks : ℕ} {s : Sfs} {E : Set ℕ}, Acct I E s → s.cached i = true →
    ∀ {r : Except Errno Unit}, growLoop dev i nblks n s = some (r, t) →
      Kept dev I E s t ∧ t.cached = s.cached
  | 0, nblks, s, E, h, _, r, hr => by
    obtain ⟨-, rfl⟩ := Code.pure_eq_some.1 hr
    exact ⟨.refl h, rfl⟩
  | n + 1, nblks, s, E, h, hc, r, hr => by
    obtain ⟨b, v, h₁, hr⟩ | ⟨e, h₁, -⟩ := Code.bind_eq_some.1 hr
    · obtain ⟨hk, hcv⟩ := bmapLoad_kept h hc h₁
      obtain ⟨E', -, -, ha⟩ := hk.acct
      refine ⟨hk.trans fun E' ha => (growLoop_kept ha (by rw [hcv, hc]) hr).1, ?_⟩
      rw [(growLoop_kept ha (by rw [hcv, hc]) hr).2, hcv]
    · exact bmapLoad_kept h hc h₁

theorem shrinkLoop_kept : ∀ {n : ℕ} {s : Sfs} {E : Set ℕ}, Acct I E s → s.cached i = true →
    ∀ {r : Except Errno Unit}, shrinkLoop dev i n s = some (r, t) →
      Kept dev I E s t ∧ t.cached = s.cached
  | 0, s, E, h, _, r, hr => by
    obtain ⟨-, rfl⟩ := Code.pure_eq_some.1 hr
    exact ⟨.refl h, rfl⟩
  | n + 1, s, E, h, hc, r, hr => by
    obtain ⟨a, v, h₁, hr⟩ | ⟨e, h₁, -⟩ := Code.bind_eq_some.1 hr
    · obtain ⟨hk, hcv⟩ := bmapTruncate_kept h hc h₁
      obtain ⟨E', -, -, ha⟩ := hk.acct
      refine ⟨hk.trans fun E' ha => (shrinkLoop_kept ha (by rw [hcv, hc]) hr).1, ?_⟩
      rw [(shrinkLoop_kept ha (by rw [hcv, hc]) hr).2, hcv]
    · exact bmapTruncate_kept h hc h₁

theorem resize_kept {nblks tblks : ℕ} (h : Acct I E s) (hc : s.cached i = true)
    {r : Except Errno Unit} (hr : resize dev i nblks tblks s = some (r, t)) :
    Kept dev I E s t ∧ t.cached = s.cached := by
  unfold resize at hr
  split at hr
  · exact growLoop_kept h hc hr
  · exact shrinkLoop_kept h hc hr

/-- **`sfs_truncfile`.** -/
theorem truncfile_kept {len : ℤ} (h : Acct I E s) (hc : s.cached i = true)
    {r : Except Errno Unit} (hr : truncfile dev i len s = some (r, t)) :
    Kept dev I E s t ∧ t.cached = s.cached := by
  unfold truncfile at hr
  split at hr
  · obtain ⟨-, rfl⟩ := Code.throw_eq_some.1 hr
    exact ⟨.refl h, rfl⟩
  · rw [Code.get_bind_eq_some] at hr
    split at hr
    · obtain ⟨-, -, rfl⟩ := Code.assert_eq_some.1 hr
      exact ⟨.refl h, rfl⟩
    · obtain ⟨a, v, h₁, hr⟩ | ⟨e, h₁, -⟩ := Code.bind_eq_some.1 hr
      · obtain ⟨hk, hcv⟩ := resize_kept h hc h₁
        rw [Code.get_bind_eq_some, Code.assert_bind_eq_some] at hr
        obtain ⟨-, -, rfl⟩ := hr.imp_right Code.modify_eq_some.1
        refine ⟨hk.trans fun E' ha => ?_, hcv⟩
        exact ha.setSin_kept (by rw [hcv, hc]) rfl rfl rfl rfl (fun hd => by cases hd)
      · exact resize_kept h hc h₁

/-- **`sfs_tryseek`.** -/
theorem tryseek_kept {pos : ℤ} (h : Acct I E s) (hc : s.cached i = true)
    {r : Except Errno Unit} (hr : tryseek dev i pos s = some (r, t)) :
    Kept dev I E s t ∧ t.cached = s.cached := by
  unfold tryseek at hr
  split at hr
  · obtain ⟨-, rfl⟩ := Code.throw_eq_some.1 hr
    exact ⟨.refl h, rfl⟩
  · rw [Code.get_bind_eq_some] at hr
    split at hr
    · exact truncfile_kept h hc hr
    · obtain ⟨-, rfl⟩ := Code.pure_eq_some.1 hr
      exact ⟨.refl h, rfl⟩

/-! ## Inodes -/

/-- `sfs_fsync` that fails leaves the inode dirty. -/
theorem setSin_dirty (hd : (s.sin i).dirty = true) (n : ℕ) :
    ((s.setSin i fun sin => { sin with dirty := false }).wait n).setSin i
      (fun sin => { sin with dirty := true }) = s.wait n := by
  have hs : Function.update (Function.update s.sin i { s.sin i with dirty := false }) i
      { s.sin i with dirty := true } = s.sin := by
    rw [Function.update_idem, ← hd]
    exact Function.update_eq_self i s.sin
  simp only [Sfs.setSin, Sfs.wait, Function.update_self, hs]

/-- `s` with inode `i` written to the disk. -/
def Sfs.synced (s : Sfs) (i : ℕ) : Sfs :=
  (s.setSin i fun sin => { sin with dirty := false }).setBlock i
    ((s.disk i).copy 0 (s.din i).bytes 64)

theorem Sfs.din_synced : (s.synced i).din j = s.din j := by
  change (s.setSin i fun sin => { sin with dirty := false }).din j = s.din j
  rw [Sfs.din_setSin]
  split
  · rename_i hj
    rw [hj]
    rfl
  · rfl

theorem Sfs.disk_synced : (s.synced i).disk b =
    if b = i then (s.disk i).copy 0 ((s.disk i).copy 0 (s.din i).bytes 64) 4096 else s.disk b :=
  Sfs.disk_setBlock _

/-- `sfs_fsync` writes a dirty inode; if it fails, or has nothing to write, only time passes. -/
theorem fsync_cases {r : Except Errno Unit} (hr : fsync dev i s = some (r, t)) :
    (r = .ok () ∧ t = (s.synced i).wait 2) ∨
      ∃ n, t = s.wait n ∧ (r = .ok () → (s.sin i).dirty = false) := by
  rw [fsync, Code.get_bind_eq_some] at hr
  split at hr
  · rename_i hd
    rw [Code.modify_bind_eq_some, Code.attempt_bind_eq_some] at hr
    obtain ⟨r₁, v, h₁, hr⟩ := hr
    obtain ⟨rfl, rfl⟩ | ⟨e, n, rfl, -, rfl⟩ := wbuf_eq_some h₁
    · obtain ⟨rfl, rfl⟩ := Code.pure_eq_some.1 hr
      exact .inl ⟨rfl, rfl⟩
    · rw [Code.modify_bind_eq_some] at hr
      obtain ⟨rfl, rfl⟩ := Code.throw_eq_some.1 hr
      exact .inr ⟨n, setSin_dirty hd n, fun e => by cases e⟩
  · rename_i hd
    obtain ⟨-, rfl⟩ := Code.pure_eq_some.1 hr
    exact .inr ⟨0, rfl, fun _ => by simpa using hd⟩

theorem Acct.dinOf_synced (hc : s.cached i = true) : (s.synced i).dinOf j = s.dinOf j := by
  by_cases hj : s.cached j = true
  · rw [Acct.dinOf_of_cached (s := s.synced i) hj, Acct.dinOf_of_cached hj, Sfs.din_synced]
  · have hji : j ≠ i := fun e => hj (e ▸ hc)
    rw [Sfs.dinOf, Sfs.dinOf, if_neg hj, Sfs.disk_synced, if_neg hji]
    exact if_neg hj

theorem Acct.synced_kept (h : Acct I E s) (hc : s.cached i = true) :
    Kept dev I E s (s.synced i) := by
  refine .of_acct (h.sync hc) fun hw j hj k hk hb => ?_
  rw [Acct.dinOf_synced hc] at hb
  refine ne_of_eq_of_ne ?_ (hw j hj k hk hb)
  rw [Sfs.bmap, Sfs.bmap, Acct.dinOf_synced hc]
  refine DiskInode.entry_congr rfl rfl fun _ => ?_
  rw [Sfs.disk_synced, if_neg (h.indirect_ne_inode hj (h.cached i hc))]

/-- **`sfs_fsync`.** -/
theorem fsync_spec (h : Acct I E s) (hc : s.cached i = true) {r : Except Errno Unit}
    (hr : fsync dev i s = some (r, t)) : Kept dev I E s t ∧ t.cached = s.cached ∧
      (∀ j, t.din j = s.din j) ∧ (r = .ok () → (t.sin i).dirty = false) := by
  obtain ⟨-, rfl⟩ | ⟨n, rfl, hd⟩ := fsync_cases hr
  · refine ⟨(h.synced_kept hc).wait 2, rfl, fun _ => Sfs.din_synced, fun _ => ?_⟩
    change ((s.setSin i fun sin => { sin with dirty := false }).sin i).dirty = false
    rw [Sfs.sin_setSin, if_pos rfl]
  · exact ⟨(Kept.refl h).wait n, rfl, fun _ => rfl, hd⟩

theorem kmalloc_eq_some {r : Except Errno Unit} (hr : kmalloc dev s = some (r, t)) :
    t = s.wait 1 ∧ (r = .ok () ∨ r = .error .noMem) := by
  rw [kmalloc, Code.attempt_bind_eq_some] at hr
  obtain ⟨r₁, v, h₁, hr⟩ := hr
  obtain ⟨rfl, ⟨rfl, -⟩ | ⟨e, rfl, -⟩⟩ := request_eq_some h₁
  · obtain ⟨rfl, rfl⟩ := Code.pure_eq_some.1 hr
    exact ⟨rfl, .inl rfl⟩
  · obtain ⟨rfl, rfl⟩ := Code.throw_eq_some.1 hr
    exact ⟨rfl, .inr rfl⟩

/-- `sfs_load_inode` takes a reference, or reads the inode, or has failed. -/
theorem loadInode_cases (hg : s.Geometry) {r : Except Errno Unit}
    (hr : loadInode dev i s = some (r, t)) :
    (s.cached i = true ∧ t = s.setSin i fun sin =>
      { sin with
        refCount := sin.refCount + 1
        reclaimCount := if sin.refCount + 1 = 1 then sin.reclaimCount + 1
          else sin.reclaimCount }) ∨
      (s.cached i = false ∧ (DiskInode.ofBytes (s.disk i)).nlinks ≠ 0 ∧
        t = Acct.loaded (s.wait 3) i) ∨ ∃ n, t = s.wait n := by
  rw [loadInode, Code.get_bind_eq_some] at hr
  split at hr
  · rename_i hc
    exact .inl ⟨hc, (Code.modify_eq_some.1 hr).2⟩
  · rename_i hc
    obtain ⟨a, v, h₁, hr⟩ | ⟨e, h₁, -⟩ := Code.bind_eq_some.1 hr
    · obtain ⟨rfl, -⟩ := kmalloc_eq_some h₁
      obtain ⟨-, hr⟩ := (assertInuse_bind_iff (s := s.wait 1) hg.bits).1 hr
      obtain ⟨m, v, h₂, hr⟩ | ⟨e, h₂, -⟩ := Code.bind_eq_some.1 hr
      · obtain ⟨rfl, hm | ⟨e, he, -⟩⟩ := rbuf_eq_some h₂
        · cases hm
          rw [Code.assert_bind_eq_some] at hr
          obtain ⟨hn, hr⟩ := hr
          have hm : ((s.wait 1).disk i).from' 0 = s.disk i := funext fun q => by
            rw [Bytes.from', Nat.zero_add]
            rfl
          rw [hm] at hn hr
          obtain ⟨a, v, h₃, hr⟩ | ⟨e, h₃, -⟩ := Code.bind_eq_some.1 hr
          · obtain ⟨rfl, -⟩ := kmalloc_eq_some h₃
            obtain ⟨-, rfl⟩ := Code.modify_eq_some.1 hr
            exact .inr (.inl ⟨Bool.eq_false_iff.2 hc, hn, rfl⟩)
          · obtain ⟨rfl, -⟩ := kmalloc_eq_some h₃
            exact .inr (.inr ⟨3, rfl⟩)
        · cases he
      · obtain ⟨rfl, -⟩ := rbuf_eq_some h₂
        exact .inr (.inr ⟨2, rfl⟩)
    · obtain ⟨rfl, -⟩ := kmalloc_eq_some h₁
      exact .inr (.inr ⟨1, rfl⟩)

/-- **`sfs_load_inode`.** -/
theorem loadInode_kept (h : Acct I E s) (hi : i ∈ I) {r : Except Errno Unit}
    (hr : loadInode dev i s = some (r, t)) : Kept dev I E s t := by
  obtain ⟨hc, rfl⟩ | ⟨hc, hn, rfl⟩ | ⟨n, rfl⟩ := loadInode_cases h.geo hr
  · exact h.setSin_kept hc rfl rfl rfl rfl id
  · have hc' : (s.wait 3).cached i = false := hc
    refine .of_acct ((h.wait 3).load hi hc' hn) fun hw j hj k hk hb => ?_
    have hd : (Acct.loaded (s.wait 3) i).dinOf j = s.dinOf j := Acct.dinOf_loaded hc'
    refine ne_of_eq_of_ne ?_ (hw j hj k hk (hd ▸ hb))
    exact congrArg (fun d => DiskInode.entry d s.disk k) hd
  · exact (Kept.refl h).wait n

/-- A clean inode leaves the memory. -/
theorem Acct.drop_kept (h : Acct I E s) (hd : (s.sin i).dirty = false) :
    Kept dev I E s { s with cached := Function.update s.cached i false } := by
  refine .of_acct (h.drop hd) fun hw j hj k hk hb => ?_
  by_cases hji : j = i ∧ s.cached i = true
  · obtain ⟨rfl, hc⟩ := hji
    obtain ⟨h1, h2, h3⟩ := h.clean j hc hd
    have hof : ({ s with cached := Function.update s.cached j false } : Sfs).dinOf j =
        .ofBytes (s.disk j) := by simp [Sfs.dinOf]
    rw [hof] at hb
    refine ne_of_eq_of_ne ?_ (hw j hj k hk ?_)
    · rw [Sfs.bmap, Sfs.bmap, hof, dinOf_of_cached hc]
      exact DiskInode.entry_congr h1 h2 fun _ => rfl
    · rw [dinOf_of_cached hc]
      omega
  · have hof : ({ s with cached := Function.update s.cached i false } : Sfs).dinOf j =
        s.dinOf j := by
      by_cases hj' : j = i
      · subst hj'
        have hc : ¬s.cached j = true := fun hc => hji ⟨rfl, hc⟩
        simp [Sfs.dinOf, hc]
      · simp [Sfs.dinOf, Sfs.din, hj']
    rw [hof] at hb
    refine ne_of_eq_of_ne ?_ (hw j hj k hk hb)
    exact congrArg (fun d => DiskInode.entry d s.disk k) hof

/-- **`sfs_reclaim`.** An inode in memory has a link, so its blocks stay; it leaves the memory if
    nobody uses it and it has been written. -/
theorem reclaim_cases (h : Acct I E s) (hc : s.cached i = true) {r : Except Errno Unit}
    (hr : reclaim dev i s = some (r, t)) :
    let s' := s.setSin i fun sin => { sin with reclaimCount := sin.reclaimCount - 1 }
    t = s' ∨ ∃ v r', fsync dev i s' = some (r', v) ∧
      (t = v ∨ (v.sin i).dirty = false ∧
        t = { v with cached := Function.update v.cached i false }) := by
  rw [reclaim, Code.get_bind_eq_some, Code.assert_bind_eq_some, Code.modify_bind_eq_some] at hr
  obtain ⟨-, hr⟩ := hr
  have hk : Kept dev I E s (s.setSin i fun sin =>
      { sin with reclaimCount := sin.reclaimCount - 1 }) :=
    h.setSin_kept hc rfl rfl rfl rfl id
  split at hr
  · obtain ⟨-, rfl⟩ := Code.throw_eq_some.1 hr
    exact .inl rfl
  · have hl := (h.links i hc).1
    rw [if_neg hl] at hr
    dsimp only at hr
    obtain ⟨E', -, -, ha⟩ := hk.acct
    obtain ⟨a, v, h₁, hr⟩ | ⟨e, h₁, -⟩ := Code.bind_eq_some.1 hr
    · obtain ⟨-, -, hdv, hcl⟩ := fsync_spec ha hc h₁
      have hlv : (v.din i).nlinks ≠ 0 := by
        rw [hdv, Sfs.din_setSin, if_pos rfl]
        exact hl
      rw [reclaimFree, Code.get_bind_eq_some, Code.modify_bind_eq_some, if_neg hlv] at hr
      obtain ⟨-, rfl⟩ := Code.pure_eq_some.1 hr
      exact .inr ⟨v, _, h₁, .inr ⟨hcl rfl, rfl⟩⟩
    · exact .inr ⟨t, _, h₁, .inl rfl⟩

theorem reclaim_kept (h : Acct I E s) (hc : s.cached i = true) {r : Except Errno Unit}
    (hr : reclaim dev i s = some (r, t)) : Kept dev I E s t := by
  have hk : Kept dev I E s (s.setSin i fun sin =>
      { sin with reclaimCount := sin.reclaimCount - 1 }) :=
    h.setSin_kept hc rfl rfl rfl rfl id
  obtain rfl | ⟨v, r', hv, rfl | ⟨hd, rfl⟩⟩ := reclaim_cases h hc hr
  · exact hk
  · exact hk.trans fun E' ha => (fsync_spec ha hc hv).1
  · exact hk.trans fun E' ha => (fsync_spec ha hc hv).1.trans fun E'' ha' => ha'.drop_kept hd

end Ucore
