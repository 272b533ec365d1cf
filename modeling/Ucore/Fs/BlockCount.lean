/-
  The number of blocks of a file and its size.

  `sfs_bmap_load_nolock` and `sfs_bmap_truncate_nolock` count the blocks one by one, `sfs_io_nolock`
  and `sfs_truncfile` set the size once, at their end; in between they can fail.

  * `Fills`: what may not fail in a write, as it has just added a block, or has to;
  * `ResizesWhole`: what may not fail in a truncation, as it has added or freed a block;
  * `ioLoop_count`, `ioNolock_count`, `truncfile_count`: with that, the number of blocks is that of
    the size behind the call, if it was before.
-/
import Ucore.Fs.FileOps

namespace Ucore

/-! ## What may not fail -/

/-- In a write, bytes are moved to every block that is added at its first byte, and a block is added
    if the write begins within it. -/
def Fills (dev : Device) (i : ℕ) : List Piece → Bytes → ℕ → Sfs → Prop
  | [], _, _, _ => True
  | p :: ps, buf, alen, s =>
    match bmapLoad dev i p.blkno s with
    | none => True
    | some (.error _, _) => p.blkno < (s.din i).blocks ∨ p.blkoff = 0
    | some (.ok b, v) =>
      match movePiece dev true p b buf alen v with
      | none => True
      | some (.error _, _) => p.blkno < (s.din i).blocks ∨ p.blkoff ≠ 0
      | some (.ok buf', w) => Fills dev i ps buf' (alen + p.size) w

/-- A file that has got or lost one of the blocks that it should, gets or loses all of them. -/
def ResizesWhole (dev : Device) (i nblks tblks : ℕ) (s : Sfs) : Prop :=
  if nblks < tblks then
    match bmapLoad dev i nblks s with
    | some (.ok _, v) => (growLoop dev i (nblks + 1) (tblks - nblks - 1)).Passes v
    | _ => True
  else if tblks < nblks then
    match bmapTruncate dev i s with
    | some (.ok _, v) => (shrinkLoop dev i (nblks - tblks - 1)).Passes v
    | _ => True
  else True

instance decidableFills (dev : Device) (i : ℕ) :
    ∀ (ps : List Piece) (buf : Bytes) (alen : ℕ) (s : Sfs), Decidable (Fills dev i ps buf alen s)
  | [], _, _, _ => .isTrue trivial
  | p :: ps, buf, alen, s => by
    unfold Fills
    split
    · infer_instance
    · infer_instance
    · split
      · infer_instance
      · infer_instance
      · exact decidableFills dev i ps _ _ _

instance (dev : Device) (i nblks tblks : ℕ) (s : Sfs) :
    Decidable (ResizesWhole dev i nblks tblks s) := by
  unfold ResizesWhole
  split
  · split <;> infer_instance
  · split
    · split <;> infer_instance
    · infer_instance

/-! ## Frames -/

/-- Only file `i` differs, in its inode in memory and its blocks on the disk. -/
structure Beside (I : Finset ℕ) (i : ℕ) (s t : Sfs) : Prop where
  cached : t.cached = s.cached
  sin : ∀ j, j ≠ i → t.sin j = s.sin j
  disk : ∀ j ∈ I, t.disk j = s.disk j
  type : (t.din i).type = (s.din i).type

section
variable {dev : Device} {I : Finset ℕ} {E : Set ℕ} {s t u : Sfs} {i j k b n : ℕ}

namespace Beside

theorem refl (s : Sfs) : Beside I i s s := ⟨rfl, fun _ _ => rfl, fun _ _ => rfl, rfl⟩

theorem trans (h : Beside I i s t) (h' : Beside I i t u) : Beside I i s u where
  cached := h'.cached.trans h.cached
  sin j hj := (h'.sin j hj).trans (h.sin j hj)
  disk j hj := (h'.disk j hj).trans (h.disk j hj)
  type := h'.type.trans h.type

theorem wait (h : Beside I i s t) (n : ℕ) : Beside I i s (t.wait n) :=
  ⟨h.cached, h.sin, h.disk, h.type⟩

theorem setBlock (h : Beside I i s t) (m : Bytes) (hb : ∀ j ∈ I, b ≠ j) :
    Beside I i s (t.setBlock b m) :=
  ⟨h.cached, h.sin, fun j hj => by
    rw [Sfs.disk_setBlock, if_neg fun e => hb j hj e.symm, h.disk j hj], h.type⟩

/-- Fields of the inode of the file are written. -/
theorem setSin (h : Beside I i s t) {f : SfsInode → SfsInode}
    (hf : (f (t.sin i)).din.type = (t.din i).type) : Beside I i s (t.setSin i f) where
  cached := h.cached
  sin j hj := by rw [Sfs.sin_setSin, if_neg hj, h.sin j hj]
  disk := h.disk
  type := by rw [Sfs.din_setSin, if_pos rfl, hf, h.type]

end Beside

theorem Mapped.beside (h : Mapped I s t i k b) (ha : Acct I E s) : Beside I i s t :=
  ⟨h.cached, h.sin, fun j hj => h.disk j (ha.inode_used hj) fun _ hl => ha.indirect_ne_inode hl hj,
    h.type⟩

theorem Failed.beside (h : Failed dev I E s t) (ha : Acct I E s) : Beside I i s t :=
  ⟨h.same.cached, fun j _ => congrFun h.same.sin j, fun j hj => h.same.disk j (ha.inode_used hj),
    by rw [h.same.din]⟩

theorem Unmapped.beside (h : Unmapped I E s t i k) (ha : Acct I E s) : Beside I i s t :=
  ⟨h.cached, h.sin, fun j hj => h.disk j (ha.inode_used hj) fun _ hl => ha.indirect_ne_inode hl hj,
    h.type⟩

/-- A piece is moved to or from a block of a file. -/
theorem movePiece_beside {write : Bool} {p : Piece} {buf : Bytes} {alen : ℕ} (h : Acct I E s)
    (hi : i ∈ I) (hk : k < 1036) (h0 : s.bmap i k ≠ 0)
    (hwh : p.whole = true → p.blkoff = 0 ∧ p.size = 4096) {r : Except Errno Bytes}
    (hr : movePiece dev write p (s.bmap i k) buf alen s = some (r, t)) :
    Beside I i s t ∧ t.sin = s.sin ∧ ∃ E', Acct I E' t := by
  obtain ⟨n, -, rfl, -⟩ | ⟨n, m, -, -, rfl, -⟩ | ⟨e, n, -, -, rfl⟩ := movePiece_spec hwh hr
  · exact ⟨(Beside.refl s).wait n, rfl, E, h.wait n⟩
  · refine ⟨((Beside.refl s).wait n).setBlock m fun j hj => h.data_ne_inode hi hk hj, rfl, E, ?_⟩
    exact (h.wait n).setBlock_data m hi hk h0
  · exact ⟨(Beside.refl s).wait n, rfl, E, h.wait n⟩

/-- A block of the file is only looked up. -/
theorem bmapLoad_old (h : Acct I E s) (hc : s.cached i = true) (hk : k < (s.din i).blocks)
    {r : Except Errno ℕ} (hr : bmapLoad dev i k s = some (r, t)) : ∃ n, t = s.wait n := by
  rw [bmapLoad, Code.get_bind_eq_some, Code.assert_bind_eq_some] at hr
  obtain ⟨-, hr⟩ := hr
  rw [decide_eq_false hk.ne] at hr
  obtain ⟨b, v, h₁, hr⟩ | ⟨e, h₁, -⟩ := Code.bind_eq_some.1 hr
  · obtain ⟨n, rfl, -⟩ := bmapGet_old h hc (bmapGet_lt h₁) (.inl rfl) h₁
    obtain ⟨-, hr⟩ := (assertInuse_bind_iff (h.wait n).geo.bits).1 hr
    rw [if_neg hk.ne] at hr
    exact ⟨n, (Code.pure_eq_some.1 hr).2⟩
  · obtain ⟨n, rfl, -⟩ := bmapGet_old h hc (bmapGet_lt h₁) (.inl rfl) h₁
    exact ⟨n, rfl⟩

/-! ## Loops that add blocks -/

/-- Only file `i` differs, and not in its size; it has lost no block, and its inode is as it was if
    it has got none. -/
structure Extended (I : Finset ℕ) (i : ℕ) (s t : Sfs) : Prop extends Beside I i s t where
  size : (t.din i).size = (s.din i).size
  le : (s.din i).blocks ≤ (t.din i).blocks
  same : (t.din i).blocks = (s.din i).blocks → t.sin i = s.sin i

namespace Extended

theorem refl (s : Sfs) : Extended I i s s := ⟨Beside.refl s, rfl, le_rfl, fun _ => rfl⟩

theorem trans (h : Extended I i s t) (h' : Extended I i t u) : Extended I i s u := by
  refine ⟨h.toBeside.trans h'.toBeside, h'.size.trans h.size, h.le.trans h'.le, fun hb => ?_⟩
  have ht : (t.din i).blocks = (s.din i).blocks := le_antisymm (hb ▸ h'.le) h.le
  rw [h'.same (hb.trans ht.symm), h.same ht]

theorem of_sin (h : Beside I i s t) (hs : t.sin = s.sin) : Extended I i s t :=
  ⟨h, by rw [Sfs.din, Sfs.din, hs], by rw [Sfs.din, Sfs.din, hs], fun _ => by rw [hs]⟩

end Extended

/-- **`sfs_bmap_load_nolock`** adds a block, looks one up, or has failed. -/
theorem bmapLoad_extended (h : Acct I E s) (hc : s.cached i = true) {r : Except Errno ℕ}
    (hr : bmapLoad dev i k s = some (r, t)) : Extended I i s t ∧ (∃ E', Acct I E' t) ∧
      k ≤ (s.din i).blocks ∧ ((∃ b, r = .ok b ∧ Loaded I E s t i k b) ∨
        ∃ e, r = .error e ∧ (t.din i).blocks = (s.din i).blocks) := by
  obtain ⟨hle, -, ⟨b, rfl, hl⟩ | ⟨e, rfl, hf, -⟩⟩ := bmapLoad_spec h hc hr
  · refine ⟨⟨hl.mapped.beside h, hl.mapped.size, by rw [hl.blocks]; omega, fun hb => ?_⟩,
      ⟨E, hl.acct⟩, hle, .inl ⟨b, rfl, hl⟩⟩
    rw [hl.blocks] at hb
    obtain ⟨n, rfl⟩ := bmapLoad_old h hc (by omega) hr
    rfl
  · obtain ⟨E', -, -, ha⟩ := hf.acct
    exact ⟨.of_sin (hf.beside h) hf.same.sin, ⟨E', ha⟩, hle, .inr ⟨e, rfl, by rw [hf.same.din]⟩⟩

/-- One round of the loop of `sfs_io_nolock`. -/
theorem ioLoop_cons {write : Bool} {p : Piece} {ps : List Piece} {buf : Bytes} {alen : ℕ}
    (h : Acct I E s) (hc : s.cached i = true)
    (hp : p.whole = true → p.blkoff = 0 ∧ p.size = 4096) {r : Except Errno IoResult}
    (hr : ioLoop dev i write (p :: ps) buf alen s = some (r, t)) :
    p.blkno ≤ (s.din i).blocks ∧
      ((∃ e, bmapLoad dev i p.blkno s = some (.error e, t) ∧ Extended I i s t ∧
          (t.din i).blocks = (s.din i).blocks ∧ r = .ok ⟨some e, alen, buf⟩) ∨
        ∃ b v r₂ w, bmapLoad dev i p.blkno s = some (.ok b, v) ∧
          movePiece dev write p b buf alen v = some (r₂, w) ∧ Extended I i s w ∧
          (w.din i).blocks = max (s.din i).blocks (p.blkno + 1) ∧ (∃ E', Acct I E' w) ∧
          ((∃ e, r₂ = .error e ∧ t = w ∧ r = .ok ⟨some e, alen, buf⟩) ∨
            ∃ buf', r₂ = .ok buf' ∧
              ioLoop dev i write ps buf' (alen + p.size) w = some (r, t))) := by
  have hi := h.cached i hc
  rw [ioLoop, Code.attempt_bind_eq_some] at hr
  obtain ⟨r₁, v, h₁, hr⟩ := hr
  obtain ⟨hx, -, hle, ⟨b, rfl, hl⟩ | ⟨e, rfl, hb⟩⟩ := bmapLoad_extended h hc h₁
  · refine ⟨hle, .inr ?_⟩
    rw [Code.attempt_bind_eq_some] at hr
    obtain ⟨r₂, w, h₂, hr⟩ := hr
    have hk := (bmapLoad_spec h hc h₁).2.1
    have hb : v.bmap i p.blkno = b := by rw [hl.mapped.bmap i hi _ hk, if_pos ⟨rfl, rfl⟩]
    obtain ⟨hbw, hsw, hE⟩ := movePiece_beside hl.acct hi hk (by rw [hb]; exact hl.mapped.ne_zero) hp
      (by rw [hb]; exact h₂)
    refine ⟨b, v, r₂, w, h₁, h₂, hx.trans (.of_sin hbw hsw), ?_, hE, ?_⟩
    · rw [Sfs.din, hsw]
      exact hl.blocks
    · cases r₂ with
      | error e =>
        obtain ⟨rfl, rfl⟩ := Code.pure_eq_some.1 hr
        exact .inl ⟨e, rfl, rfl, rfl⟩
      | ok buf' => exact .inr ⟨buf', rfl, hr⟩
  · obtain ⟨rfl, rfl⟩ := Code.pure_eq_some.1 hr
    exact ⟨hle, .inl ⟨e, h₁, hx, hb, rfl⟩⟩

/-- The loop adds no more blocks than the range has. -/
theorem ioLoop_extended {write : Bool} : ∀ {ps : List Piece} {buf : Bytes} {alen a c : ℕ} {s : Sfs}
    {E : Set ℕ}, Tiles a ps c → Acct I E s → s.cached i = true → ∀ {r : Except Errno IoResult},
    ioLoop dev i write ps buf alen s = some (r, t) →
      Extended I i s t ∧ (t.din i).blocks ≤ max (s.din i).blocks ((c + 4095) / 4096)
  | [], _, _, _, _, s, _, _, _, _, r, hr => by
    obtain ⟨-, rfl⟩ := Code.pure_eq_some.1 hr
    exact ⟨.refl _, le_max_left _ _⟩
  | p :: ps, _, _, a, c, s, E, ht, h, hc, r, hr => by
    obtain ⟨⟨hblk, hmod, hpos, hoff, hwh⟩, -, ht'⟩ := ht
    have hle := ht'.le
    obtain ⟨-, ⟨e, -, hx, hb, -⟩ | ⟨b, v, r₂, w, -, -, hx, hb, ⟨E', ha⟩, hw⟩⟩ :=
      ioLoop_cons h hc hwh hr
    · exact ⟨hx, by rw [hb]; exact le_max_left _ _⟩
    · obtain ⟨e, -, rfl, -⟩ | ⟨buf', -, hw⟩ := hw
      · exact ⟨hx, by rw [hb]; omega⟩
      · obtain ⟨hx', hb'⟩ := ioLoop_extended ht' ha (by rw [hx.cached, hc]) hw
        refine ⟨hx.trans hx', ?_⟩
        rw [hb] at hb'
        omega

/-- **The loop of a write** adds the blocks up to where it has got. -/
theorem ioLoop_count : ∀ {ps : List Piece} {buf : Bytes} {alen a c : ℕ} {s : Sfs} {E : Set ℕ},
    Tiles a ps c → Acct I E s → s.cached i = true → Fills dev i ps buf alen s →
    (ps = [] → (a + 4095) / 4096 ≤ (s.din i).blocks) → ∀ {r : Except Errno IoResult},
    ioLoop dev i true ps buf alen s = some (r, t) → ∃ out, r = .ok out ∧ alen ≤ out.alen ∧
      a + (out.alen - alen) ≤ c ∧
        (t.din i).blocks = max (s.din i).blocks ((a + (out.alen - alen) + 4095) / 4096)
  | [], buf, alen, _, _, s, _, ht, _, _, _, h0, r, hr => by
    obtain ⟨rfl, rfl⟩ := Code.pure_eq_some.1 hr
    refine ⟨_, rfl, le_rfl, ?_⟩
    rw [Nat.sub_self, Nat.add_zero, max_eq_left (h0 rfl)]
    exact ⟨Nat.le_of_eq ht, rfl⟩
  | p :: ps, buf, alen, a, c, s, E, ht, h, hc, hf, _, r, hr => by
    obtain ⟨⟨hblk, hmod, hpos, hoff, hwh⟩, -, ht'⟩ := ht
    have hac := ht'.le
    rw [Fills] at hf
    obtain ⟨hle, ⟨e, h₁, -, hb, rfl⟩ | ⟨b, v, r₂, w, h₁, h₂, hx, hb, ⟨E', ha⟩, hw⟩⟩ :=
      ioLoop_cons h hc hwh hr
    · -- the block is refused: the range begins at it, or it was there
      rw [h₁] at hf
      dsimp only at hf
      refine ⟨_, rfl, le_rfl, ?_⟩
      dsimp only
      constructor <;> omega
    · rw [h₁] at hf
      dsimp only at hf
      rw [h₂] at hf
      obtain ⟨e, rfl, rfl, rfl⟩ | ⟨buf', rfl, hw⟩ := hw
      · -- the bytes are not moved: the range begins within the block, or it was there
        dsimp only at hf
        refine ⟨_, rfl, le_rfl, ?_⟩
        dsimp only
        constructor <;> omega
      · have hcov : (a + p.size + 4095) / 4096 ≤ (w.din i).blocks := by omega
        obtain ⟨out, rfl, hal, hec, hb'⟩ := ioLoop_count ht' ha (by rw [hx.cached, hc]) hf
          (fun _ => hcov) hw
        refine ⟨out, rfl, by omega, by omega, ?_⟩
        rw [hb', hb]
        omega

/-! ## Reading and writing -/

/-- Only file `i` differs; its inode is as it was, or its size and its blocks have been set and it
    is dirty. -/
structure Adjusted (I : Finset ℕ) (i : ℕ) (s t : Sfs) : Prop extends Beside I i s t where
  count : t.sin i = s.sin i ∨ (t.sin i).dirty = true ∧
    (t.din i).blocks = ((t.din i).size + 4095) / 4096 ∧ (t.din i).size ≤ sfsMaxFileSize

theorem Extended.adjusted (h : Extended I i s t) (hb : (t.din i).blocks = (s.din i).blocks) :
    Adjusted I i s t := ⟨h.toBeside, .inl (h.same hb)⟩

theorem Adjusted.refl (s : Sfs) : Adjusted I i s s := ⟨Beside.refl s, .inl rfl⟩

/-- The size is set to that of the blocks. -/
theorem Beside.setSize (h : Beside I i s t) {n : ℕ} (hb : (t.din i).blocks = (n + 4095) / 4096)
    (hn : n ≤ sfsMaxFileSize) :
    Adjusted I i s (t.setDin i fun din => { din with size := n }) := by
  refine ⟨h.setSin rfl, .inr ⟨?_, ?_, ?_⟩⟩
  · rw [Sfs.setDin, Sfs.sin_setSin, if_pos rfl]
  · rw [Sfs.din_setDin, if_pos rfl]
    exact hb
  · rw [Sfs.din_setDin, if_pos rfl]
    exact hn

/-- `endpos` of a write. -/
def writeEnd (offset : ℤ) (alen : ℕ) : ℤ :=
  if (sfsMaxFileSize : ℤ) < Int.bmod (offset + alen) (2 ^ 64) then (sfsMaxFileSize : ℤ)
  else Int.bmod (offset + alen) (2 ^ 64)

/-- The write that is left after the checks of `sfs_io_nolock` fills its blocks. -/
def FillsIo (dev : Device) (i : ℕ) (buf : Bytes) (offset : ℤ) (alen : ℕ) (s : Sfs) : Prop :=
  0 ≤ offset → offset < sfsMaxFileSize → offset < Int.bmod (offset + alen) (2 ^ 64) →
    Fills dev i (ioPieces offset.toNat (writeEnd offset alen).toNat) buf 0 s

/-- **`sfs_io_nolock`.** -/
theorem ioNolock_count {buf : Bytes} {offset : ℤ} {alen : ℕ} {write : Bool} (h : Acct I E s)
    (hc : s.cached i = true) (hb : (s.din i).blocks = ((s.din i).size + 4095) / 4096)
    (hf : write = true → FillsIo dev i buf offset alen s) {r : Except Errno IoResult}
    (hr : ioNolock dev i buf offset alen write s = some (r, t)) : Adjusted I i s t := by
  simp only [ioNolock, Code.get_bind_eq_some, Code.assert_bind_eq_some] at hr
  obtain ⟨-, hr⟩ := hr
  split at hr
  · obtain ⟨-, rfl⟩ := Code.pure_eq_some.1 hr
    exact .refl _
  · rename_i hchk
    simp only [not_or, not_lt, not_le] at hchk
    obtain ⟨h0, hmax, hend⟩ := hchk
    split at hr
    · obtain ⟨-, rfl⟩ := Code.pure_eq_some.1 hr
      exact .refl _
    · rename_i hne
      split at hr
      · split at hr
        · obtain ⟨-, rfl⟩ := Code.pure_eq_some.1 hr
          exact .refl _
        · -- a read ends in the blocks of the file
          obtain ⟨hx, hle⟩ := ioLoop_extended (ioPieces_tiles (by omega)) h hc hr
          refine hx.adjusted (le_antisymm (hle.trans (max_le le_rfl ?_)) hx.le)
          rw [hb]
          exact Nat.div_le_div_right (by split <;> omega)
      · rename_i hwr
        obtain rfl : write = true := by simpa using hwr
        have hlt : offset.toNat < (writeEnd offset alen).toNat ∧
            (writeEnd offset alen).toNat ≤ sfsMaxFileSize := by
          unfold writeEnd
          split <;> omega
        change
          (ioLoop dev i true (ioPieces offset.toNat (writeEnd offset alen).toNat) buf 0 >>= _) s
          = _ at hr
        have ht := ioPieces_tiles hlt.1
        have hfill := hf rfl h0 hmax (by omega)
        have hne' : ioPieces offset.toNat (writeEnd offset alen).toNat ≠ [] := fun e => by
          rw [e, Tiles] at ht
          omega
        obtain ⟨out, v, h₁, hr⟩ | ⟨e, h₁, -⟩ := Code.bind_eq_some.1 hr
        · obtain ⟨hx, -⟩ := ioLoop_extended ht h hc h₁
          obtain ⟨out', he, -, hend', hcnt⟩ :=
            ioLoop_count ht h hc hfill (fun e => absurd e hne') h₁
          cases he
          rw [Nat.sub_zero] at hcnt hend'
          rw [Code.get_bind_eq_some] at hr
          split at hr
          · rename_i hsz
            rw [hx.size] at hsz
            rw [Code.modify_bind_eq_some] at hr
            obtain ⟨-, rfl⟩ := Code.pure_eq_some.1 hr
            refine hx.toBeside.setSize ?_ ?_
            · rw [hcnt]
              omega
            · omega
          · rename_i hsz
            rw [hx.size] at hsz
            obtain ⟨-, rfl⟩ := Code.pure_eq_some.1 hr
            exact hx.adjusted (by omega)
        · obtain ⟨out, he, -⟩ := ioLoop_count ht h hc hfill (fun e => absurd e hne') h₁
          cases he

/-! ## Truncation -/

theorem growLoop_extended : ∀ {n nblks : ℕ} {s : Sfs} {E : Set ℕ}, Acct I E s →
    s.cached i = true → ∀ {r : Except Errno Unit}, growLoop dev i nblks n s = some (r, t) →
      Extended I i s t
  | 0, _, s, _, _, _, _, hr => by
    obtain ⟨-, rfl⟩ := Code.pure_eq_some.1 hr
    exact .refl _
  | n + 1, nblks, s, E, h, hc, r, hr => by
    obtain ⟨b, v, h₁, hr⟩ | ⟨e, h₁, -⟩ := Code.bind_eq_some.1 hr
    · obtain ⟨hx, ⟨E', ha⟩, -⟩ := bmapLoad_extended h hc h₁
      exact hx.trans (growLoop_extended ha (by rw [hx.cached, hc]) hr)
    · exact (bmapLoad_extended h hc h₁).1

theorem shrinkLoop_beside : ∀ {n : ℕ} {s : Sfs} {E : Set ℕ}, Acct I E s → s.cached i = true →
    ∀ {r : Except Errno Unit}, shrinkLoop dev i n s = some (r, t) → Beside I i s t
  | 0, s, _, _, _, _, hr => by
    obtain ⟨-, rfl⟩ := Code.pure_eq_some.1 hr
    exact .refl _
  | n + 1, s, E, h, hc, r, hr => by
    obtain ⟨a, v, h₁, hr⟩ | ⟨e, h₁, -⟩ := Code.bind_eq_some.1 hr
    · obtain ⟨-, ⟨-, hu, -⟩ | ⟨e, n, he, -⟩⟩ := bmapTruncate_spec h hc h₁
      · exact (hu.beside h).trans (shrinkLoop_beside hu.acct (by rw [hu.cached, hc]) hr)
      · cases he
    · obtain ⟨-, ⟨he, -⟩ | ⟨e, n, -, -, rfl⟩⟩ := bmapTruncate_spec h hc h₁
      · cases he
      · exact (Beside.refl s).wait n

theorem resize_beside {nblks tblks : ℕ} (h : Acct I E s) (hc : s.cached i = true)
    {r : Except Errno Unit} (hr : resize dev i nblks tblks s = some (r, t)) : Beside I i s t := by
  unfold resize at hr
  split at hr
  · exact (growLoop_extended h hc hr).toBeside
  · exact shrinkLoop_beside h hc hr

/-- A file that may not be resized in part, and is not resized, is as it was. -/
theorem resize_error {nblks tblks : ℕ} (h : Acct I E s) (hc : s.cached i = true)
    (hw : ResizesWhole dev i nblks tblks s) {e : Errno}
    (hr : resize dev i nblks tblks s = some (.error e, t)) : t.sin i = s.sin i := by
  unfold resize at hr
  unfold ResizesWhole at hw
  split at hr
  · rename_i hlt
    rw [if_pos hlt] at hw
    obtain ⟨n, hn⟩ : ∃ n, tblks - nblks = n + 1 := ⟨tblks - nblks - 1, by omega⟩
    rw [hn] at hr hw
    obtain ⟨b, v, h₁, hr⟩ | ⟨e, h₁, -⟩ := Code.bind_eq_some.1 hr
    · rw [h₁] at hw
      exact absurd hr (Code.Passes.ne_error hw)
    · obtain ⟨hx, -, -, ⟨b, he, -⟩ | ⟨e, -, hb⟩⟩ := bmapLoad_extended h hc h₁
      · cases he
      · exact hx.same hb
  · rename_i hle
    rw [if_neg hle] at hw
    cases hn : nblks - tblks with
    | zero =>
      rw [hn] at hr
      cases (Code.pure_eq_some.1 hr).1
    | succ n =>
      rw [if_pos (by omega), hn] at hw
      rw [hn] at hr
      obtain ⟨a, v, h₁, hr⟩ | ⟨e, h₁, -⟩ := Code.bind_eq_some.1 hr
      · rw [h₁] at hw
        exact absurd hr (Code.Passes.ne_error hw)
      · obtain ⟨-, ⟨he, -⟩ | ⟨e, n, -, -, rfl⟩⟩ := bmapTruncate_spec h hc h₁
        · cases he
        · rfl

/-- The truncation that is left after the checks of `sfs_truncfile` is done in whole. -/
def TruncsWhole (dev : Device) (i : ℕ) (len : ℤ) (s : Sfs) : Prop :=
  0 ≤ len → len ≤ sfsMaxFileSize → (s.din i).size ≠ len →
    ResizesWhole dev i (s.din i).blocks ((len.toNat + 4095) / 4096) s

/-- **`sfs_truncfile`.** -/
theorem truncfile_count {len : ℤ} (h : Acct I E s) (hc : s.cached i = true)
    (hw : TruncsWhole dev i len s) {r : Except Errno Unit}
    (hr : truncfile dev i len s = some (r, t)) : Adjusted I i s t := by
  unfold truncfile at hr
  split at hr
  · obtain ⟨-, rfl⟩ := Code.throw_eq_some.1 hr
    exact .refl _
  · rename_i hlen
    simp only [not_or, not_lt] at hlen
    rw [Code.get_bind_eq_some] at hr
    split at hr
    · obtain ⟨-, -, rfl⟩ := Code.assert_eq_some.1 hr
      exact .refl _
    · rename_i hne
      obtain ⟨a, v, h₁, hr⟩ | ⟨e, h₁, -⟩ := Code.bind_eq_some.1 hr
      · rw [Code.get_bind_eq_some, Code.assert_bind_eq_some] at hr
        obtain ⟨hb, -, rfl⟩ := hr.imp_right Code.modify_eq_some.1
        exact (resize_beside h hc h₁).setSize hb (by omega)
      · exact ⟨resize_beside h hc h₁, .inl (resize_error h hc (hw hlen.1 hlen.2 hne) h₁)⟩

/-- **`sfs_tryseek`.** -/
theorem tryseek_count {pos : ℤ} (h : Acct I E s) (hc : s.cached i = true)
    (hw : pos < sfsMaxFileSize → (s.din i).size < pos → TruncsWhole dev i pos s)
    {r : Except Errno Unit} (hr : tryseek dev i pos s = some (r, t)) : Adjusted I i s t := by
  unfold tryseek at hr
  split at hr
  · obtain ⟨-, rfl⟩ := Code.throw_eq_some.1 hr
    exact .refl _
  · rename_i hp
    simp only [not_or, not_le, not_lt] at hp
    rw [Code.get_bind_eq_some] at hr
    split at hr
    · rename_i hs
      exact truncfile_count h hc (hw hp.2 hs) hr
    · obtain ⟨-, rfl⟩ := Code.pure_eq_some.1 hr
      exact .refl _

end

end Ucore
