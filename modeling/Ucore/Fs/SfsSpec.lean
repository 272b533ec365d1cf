/-
  What the functions of `sfs_io.c` and the block functions of `sfs_inode.c` do.

  * `readBlock_eq_some`, `rbuf_eq_some`, `writeBlock_eq_some`, `wbuf_eq_some`: a read changes
    nothing but the time, a write changes its block, a failed request transfers nothing;
  * `assertInuse_iff`, `blockAlloc_eq_some`, `blockFree_iff`: a free block is taken and cleared, a
    block in use is given back;
  * `…_runs`: when they do not panic.
-/
import Ucore.Fs.Sfs

namespace Ucore

namespace Sfs

variable {s t : Sfs} {b n : ℕ}

/-! ## States -/

/-- Block `b` is in use (`sfs_block_inuse`). -/
def Used (s : Sfs) (b : ℕ) : Prop := b ≠ 0 ∧ b < s.blocks ∧ s.freemap.bit b = false

/-- Block `b` is free. -/
def Free (s : Sfs) (b : ℕ) : Prop :=
  b ≠ 0 ∧ b < s.blocks ∧ b < s.freemap.nbits ∧ s.freemap.bit b = true

/-- `s` with block `b` taken. -/
def take (s : Sfs) (b : ℕ) : Sfs :=
  { s with
    freemap := s.freemap.setBit b false
    unusedBlocks := s.unusedBlocks - 1
    superDirty := true }

/-- `s` with block `b` given back. -/
def give (s : Sfs) (b : ℕ) : Sfs :=
  { s with
    freemap := s.freemap.setBit b true
    unusedBlocks := s.unusedBlocks + 1
    superDirty := true }

/-- The free map is that of the super block: as many bits as `sfs_freemap_bits` says, and none free
    that is not a block. -/
structure Geometry (s : Sfs) : Prop where
  words : s.freemap.nbits = 32 * s.freemap.nwords
  bits : s.blocks ≤ s.freemap.nbits
  word : s.blocks ≤ 2 ^ 32
  free : ∀ b < s.freemap.nbits, s.freemap.bit b = true → b ≠ 0 ∧ b < s.blocks

@[simp] theorem wait_wait (m : ℕ) : (s.wait n).wait m = s.wait (n + m) := by
  simp [wait, Nat.add_assoc]

theorem Geometry.not_used_of_free (h : s.Free b) : ¬s.Used b := by
  rintro ⟨-, -, hb⟩
  rw [h.2.2.2] at hb
  cases hb

theorem used_take_iff (h : s.Free b) : (s.take b).Used n ↔ n = b ∨ s.Used n := by
  change n ≠ 0 ∧ n < s.blocks ∧ (s.freemap.setBit b false).bit n = false ↔ _
  rw [Bitmap.bit_setBit false (by simp [h.2.2.2])]
  by_cases hn : n = b
  · subst hn
    simp [h.1, h.2.1]
  · simp [hn, Used]

theorem used_give_iff (h : s.Used b) : (s.give b).Used n ↔ s.Used n ∧ n ≠ b := by
  change n ≠ 0 ∧ n < s.blocks ∧ (s.freemap.setBit b true).bit n = false ↔ _
  rw [Bitmap.bit_setBit true (by simp [h.2.2])]
  by_cases hn : n = b
  · subst hn
    simp
  · simp [hn, Used]

theorem Geometry.congr (h : s.Geometry) (hf : t.freemap = s.freemap) (hb : t.blocks = s.blocks) :
    t.Geometry :=
  ⟨hf ▸ h.words, by rw [hf, hb]; exact h.bits, hb ▸ h.word, by rw [hf, hb]; exact h.free⟩

theorem Geometry.take (h : s.Geometry) (hb : s.Free b) : (s.take b).Geometry where
  words := h.words
  bits := h.bits
  word := h.word
  free n hn hbit := by
    refine h.free n hn ?_
    change (s.freemap.setBit b false).bit n = true at hbit
    rw [Bitmap.bit_setBit false (by simp [hb.2.2.2])] at hbit
    split at hbit
    · cases hbit
    · exact hbit

theorem Geometry.give (h : s.Geometry) (hb : s.Used b) : (s.give b).Geometry where
  words := h.words
  bits := h.bits
  word := h.word
  free n hn hbit := by
    change (s.freemap.setBit b true).bit n = true at hbit
    rw [Bitmap.bit_setBit true (by simp [hb.2.2])] at hbit
    split at hbit
    · rename_i hnb
      subst hnb
      exact ⟨hb.1, hb.2.1⟩
    · exact h.free n hn hbit

theorem disk_setBlock (m : Bytes) : (s.setBlock b m).disk n =
    if n = b then (s.disk b).copy 0 m 4096 else s.disk n := by
  by_cases h : n = b
  · subst h
    simp [setBlock]
  · simp [setBlock, h]

theorem sin_setSin {f : SfsInode → SfsInode} {i j : ℕ} :
    (s.setSin i f).sin j = if j = i then f (s.sin i) else s.sin j := by
  by_cases h : j = i
  · subst h
    simp [setSin]
  · simp [setSin, h]

theorem din_setSin {f : SfsInode → SfsInode} {i j : ℕ} :
    (s.setSin i f).din j = if j = i then (f (s.sin i)).din else s.din j := by
  rw [din, sin_setSin]
  split <;> rfl

theorem din_setDin {f : DiskInode → DiskInode} {i j : ℕ} :
    (s.setDin i f).din j = if j = i then f (s.din i) else s.din j := din_setSin

end Sfs

/-! ## Requests -/

section
variable {dev : Device} {s t : Sfs} {req : Request} {blkno len offset b : ℕ} {buf : Bytes}

/-- Some request fails. -/
def Device.Faulty (dev : Device) : Prop := ∃ n req, dev.fault n req ≠ none

theorem request_eq_some {r : Except Errno Unit} (h : request dev req s = some (r, t)) :
    t = s.wait 1 ∧ (r = .ok () ∧ dev.fault s.time req = none ∨
      ∃ e, r = .error e ∧ dev.fault s.time req = some e) := by
  simp only [request, Code.get_bind_eq_some, Code.modify_bind_eq_some] at h
  cases hf : dev.fault s.time req with
  | none =>
    simp only [hf, Code.pure_eq_some] at h
    exact ⟨h.2, .inl ⟨h.1, rfl⟩⟩
  | some e =>
    simp only [hf, Code.throw_eq_some] at h
    exact ⟨h.2, .inr ⟨e, h.1, rfl⟩⟩

theorem request_ok (h : dev.fault s.time req = none) :
    request dev req s = some (.ok (), s.wait 1) := by
  unfold request
  rw [Code.bind_ok (a := s) rfl, Code.bind_ok (a := ()) rfl, h]
  rfl

theorem request_error {e : Errno} (h : dev.fault s.time req = some e) :
    request dev req s = some (.error e, s.wait 1) := by
  unfold request
  rw [Code.bind_ok (a := s) rfl, Code.bind_ok (a := ()) rfl, h]
  rfl

theorem request_runs : Code.Runs (request dev req) s := by
  cases h : dev.fault s.time req with
  | none => exact ⟨_, _, request_ok h⟩
  | some e => exact ⟨_, _, request_error h⟩

theorem readBlock_eq_some {r : Except Errno Bytes} (h : readBlock dev blkno s = some (r, t)) :
    t = s.wait 1 ∧ (r = .ok (s.disk blkno) ∨ ∃ e, r = .error e ∧ dev.Faulty) := by
  simp only [readBlock, checkBlkno, bind_assoc, Code.get_bind_eq_some,
    Code.assert_bind_eq_some] at h
  obtain ⟨a, u, hr, hk⟩ | ⟨e, hr, rfl⟩ := Code.bind_eq_some.1 h.2
  · simp only [Code.get_bind_eq_some, Code.pure_eq_some] at hk
    obtain ⟨rfl, rfl⟩ := hk
    obtain ⟨rfl, -⟩ := request_eq_some hr
    exact ⟨rfl, .inl rfl⟩
  · obtain ⟨rfl, ⟨h', -⟩ | ⟨e', -, hf⟩⟩ := request_eq_some hr
    · cases h'
    · exact ⟨rfl, .inr ⟨e, rfl, s.time, .read, by simp [hf]⟩⟩

theorem readBlock_runs (h0 : blkno ≠ 0) (hlt : blkno < s.blocks) :
    Code.Runs (readBlock dev blkno) s := by
  simp only [readBlock, checkBlkno, bind_assoc, Code.runs_get_bind, Code.runs_assert_bind]
  refine ⟨⟨h0, hlt⟩, request_runs.bind fun a u _ => ?_⟩
  rw [Code.runs_get_bind]
  exact Code.Runs.pure _

theorem writeBlock_eq_some {r : Except Errno Unit}
    (h : writeBlock dev req buf blkno s = some (r, t)) :
    r = .ok () ∧ t = (s.wait 1).setBlock blkno buf ∨
      ∃ e, r = .error e ∧ dev.fault s.time req = some e ∧ t = s.wait 1 := by
  simp only [writeBlock, checkBlkno, bind_assoc, Code.get_bind_eq_some,
    Code.assert_bind_eq_some] at h
  obtain ⟨a, u, hr, hk⟩ | ⟨e, hr, rfl⟩ := Code.bind_eq_some.1 h.2
  · obtain ⟨rfl, rfl⟩ := Code.modify_eq_some.1 hk
    obtain ⟨rfl, -⟩ := request_eq_some hr
    exact .inl ⟨rfl, rfl⟩
  · obtain ⟨rfl, ⟨h', -⟩ | ⟨e', he, hf⟩⟩ := request_eq_some hr
    · cases h'
    · cases he
      exact .inr ⟨e, rfl, hf, rfl⟩

theorem writeBlock_runs (h0 : blkno ≠ 0) (hlt : blkno < s.blocks) :
    Code.Runs (writeBlock dev req buf blkno) s := by
  simp only [writeBlock, checkBlkno, bind_assoc, Code.runs_get_bind, Code.runs_assert_bind]
  exact ⟨⟨h0, hlt⟩, request_runs.bind fun a u _ => ⟨_, _, Code.modify_eq_some.2 ⟨rfl, rfl⟩⟩⟩

theorem rbuf_eq_some {r : Except Errno Bytes} (h : rbuf dev len blkno offset s = some (r, t)) :
    t = s.wait 1 ∧ (r = .ok ((s.disk blkno).from' offset) ∨ ∃ e, r = .error e ∧ dev.Faulty) := by
  simp only [rbuf, Code.assert_bind_eq_some] at h
  obtain ⟨m, u, hr, hk⟩ | ⟨e, hr, rfl⟩ := Code.bind_eq_some.1 h.2
  · obtain ⟨rfl, rfl⟩ := Code.pure_eq_some.1 hk
    obtain ⟨rfl, hm | ⟨e, he, -⟩⟩ := readBlock_eq_some hr
    · cases hm
      exact ⟨rfl, .inl rfl⟩
    · cases he
  · obtain ⟨rfl, hm | ⟨e', -, hf⟩⟩ := readBlock_eq_some hr
    · cases hm
    · exact ⟨rfl, .inr ⟨e, rfl, hf⟩⟩

theorem rbuf_runs (h0 : blkno ≠ 0) (hlt : blkno < s.blocks) (ho : offset < 4096)
    (hl : offset + len ≤ 4096) : Code.Runs (rbuf dev len blkno offset) s := by
  simp only [rbuf, Code.runs_assert_bind]
  exact ⟨⟨ho, hl⟩, (readBlock_runs h0 hlt).bind fun a u _ => Code.Runs.pure _⟩

theorem wbuf_eq_some {r : Except Errno Unit} (h : wbuf dev buf len blkno offset s = some (r, t)) :
    r = .ok () ∧ t = (s.wait 2).setBlock blkno ((s.disk blkno).copy offset buf len) ∨
      ∃ e n, r = .error e ∧ dev.Faulty ∧ t = s.wait n := by
  simp only [wbuf, Code.assert_bind_eq_some] at h
  obtain ⟨m, u, hr, hk⟩ | ⟨e, hr, rfl⟩ := Code.bind_eq_some.1 h.2
  · obtain ⟨rfl, hm | ⟨e, he, -⟩⟩ := readBlock_eq_some hr
    · cases hm
      obtain ⟨rfl, rfl⟩ | ⟨e, rfl, hf, rfl⟩ := writeBlock_eq_some hk
      · exact .inl ⟨rfl, rfl⟩
      · exact .inr ⟨e, 2, rfl, ⟨_, _, by rw [hf]; simp⟩, rfl⟩
    · cases he
  · obtain ⟨rfl, hm | ⟨e', -, hf⟩⟩ := readBlock_eq_some hr
    · cases hm
    · exact .inr ⟨e, 1, rfl, hf, rfl⟩

theorem wbuf_runs (h0 : blkno ≠ 0) (hlt : blkno < s.blocks) (ho : offset < 4096)
    (hl : offset + len ≤ 4096) : Code.Runs (wbuf dev buf len blkno offset) s := by
  simp only [wbuf, Code.runs_assert_bind]
  refine ⟨⟨ho, hl⟩, (readBlock_runs h0 hlt).bind fun a u hr => ?_⟩
  obtain ⟨rfl, -⟩ := readBlock_eq_some hr
  exact writeBlock_runs h0 hlt

/-! ## Blocks -/

theorem assertInuse_iff (hg : s.blocks ≤ s.freemap.nbits) {r : Except Errno Unit} :
    assertInuse b s = some (r, t) ↔ s.Used b ∧ r = .ok () ∧ t = s := by
  simp only [assertInuse, Code.get_bind_eq_some, Code.assert_bind_eq_some]
  constructor
  · rintro ⟨⟨h0, hlt⟩, h⟩
    obtain ⟨free, u, hr, hk⟩ | ⟨e, hr, -⟩ := Code.bind_eq_some.1 h
    · obtain ⟨v, hv, rfl⟩ := Code.on_eq_some.1 hr
      obtain ⟨-, hfree, rfl⟩ := Bitmap.bitmapTest_eq_some.1 hv
      obtain ⟨hf, rfl, rfl⟩ := Code.assert_eq_some.1 hk
      cases hfree
      exact ⟨⟨h0, hlt, hf⟩, rfl, rfl⟩
    · obtain ⟨v, hv, rfl⟩ := Code.on_eq_some.1 hr
      cases (Bitmap.bitmapTest_eq_some.1 hv).2.1
  · rintro ⟨⟨h0, hlt, hf⟩, rfl, rfl⟩
    refine ⟨⟨h0, hlt⟩, Code.bind_eq_some.2 (.inl ⟨false, t, ?_, ?_⟩)⟩
    · exact Code.on_eq_some.2
        ⟨t.freemap, Bitmap.bitmapTest_eq_some.2 ⟨by omega, by rw [hf], rfl⟩, rfl⟩
    · exact Code.assert_eq_some.2 ⟨rfl, rfl, rfl⟩

theorem assertInuse_runs (hg : s.blocks ≤ s.freemap.nbits) (h : s.Used b) :
    Code.Runs (assertInuse b) s := ⟨.ok (), s, (assertInuse_iff hg).2 ⟨h, rfl, rfl⟩⟩

theorem assertInuse_bind_iff (hg : s.blocks ≤ s.freemap.nbits) {α : Type} {f : Unit → K α}
    {r : Except Errno α} :
    (assertInuse b >>= f) s = some (r, t) ↔ s.Used b ∧ f () s = some (r, t) := by
  rw [Code.bind_eq_some]
  constructor
  · rintro (⟨a, u, h, hf⟩ | ⟨e, h, -⟩)
    · obtain ⟨hu, -, rfl⟩ := (assertInuse_iff hg).1 h
      exact ⟨hu, hf⟩
    · cases ((assertInuse_iff hg).1 h).2.1
  · rintro ⟨hu, hf⟩
    exact .inl ⟨(), s, (assertInuse_iff hg).2 ⟨hu, rfl, rfl⟩, hf⟩

theorem blockFree_iff (hg : s.blocks ≤ s.freemap.nbits) {r : Except Errno Unit} :
    blockFree b s = some (r, t) ↔ s.Used b ∧ r = .ok () ∧ t = s.give b := by
  rw [blockFree, assertInuse_bind_iff hg]
  refine and_congr_right fun hu => ?_
  constructor
  · intro h
    obtain ⟨a, u, hr, hk⟩ | ⟨e, hr, -⟩ := Code.bind_eq_some.1 h
    · obtain ⟨v, hv, rfl⟩ := Code.on_eq_some.1 hr
      obtain ⟨-, -, -, rfl⟩ := Bitmap.bitmapFree_eq_some.1 hv
      exact Code.modify_eq_some.1 hk
    · obtain ⟨v, hv, rfl⟩ := Code.on_eq_some.1 hr
      cases (Bitmap.bitmapFree_eq_some.1 hv).2.2.1
  · rintro ⟨rfl, rfl⟩
    refine Code.bind_eq_some.2 (.inl ⟨(), { s with freemap := s.freemap.setBit b true }, ?_, ?_⟩)
    · exact Code.on_eq_some.2 ⟨_, Bitmap.bitmapFree_eq_some.2
        ⟨lt_of_lt_of_le hu.2.1 hg, hu.2.2, rfl, rfl⟩, rfl⟩
    · exact Code.modify_eq_some.2 ⟨rfl, rfl⟩

theorem blockFree_runs (hg : s.blocks ≤ s.freemap.nbits) (h : s.Used b) :
    Code.Runs (blockFree b) s := ⟨.ok (), s.give b, (blockFree_iff hg).2 ⟨h, rfl, rfl⟩⟩

/-- **`sfs_block_alloc`.** It takes a free block and clears it; if the block cannot be cleared it
    stays taken. -/
theorem blockAlloc_eq_some (hg : s.Geometry) {r : Except Errno ℕ}
    (h : blockAlloc dev s = some (r, t)) :
    (∃ b, r = .ok b ∧ s.Free b ∧ t = ((s.take b).wait 1).setBlock b fun _ => 0) ∨
      (∃ b e, r = .error e ∧ s.Free b ∧ dev.fault s.time .clear = some e ∧
        t = (s.take b).wait 1) ∨
      (r = .error .noMem ∧ t = s ∧ s.freemap.freeBits = ∅) := by
  obtain ⟨b, u, hr, hk⟩ | ⟨e, hr, rfl⟩ := Code.bind_eq_some.1 h
  · obtain ⟨v, hv, rfl⟩ := Code.on_eq_some.1 hr
    obtain ⟨b', hb', hbit, hlt, rfl⟩ | ⟨hb', -⟩ := Bitmap.bitmapAlloc_eq_some hv
    · cases hb'
      simp only [Code.get_bind_eq_some, Code.assert_bind_eq_some, Code.modify_bind_eq_some] at hk
      obtain ⟨-, hk⟩ := hk
      have hfree : s.Free b :=
        ⟨(hg.free b (by rw [hg.words]; exact hlt) hbit).1,
          (hg.free b (by rw [hg.words]; exact hlt) hbit).2, by rw [hg.words]; exact hlt, hbit⟩
      obtain ⟨-, hk⟩ := (assertInuse_bind_iff (hg.take hfree).bits).1 hk
      obtain ⟨a, u, hr, hk⟩ | ⟨e, hr, rfl⟩ := Code.bind_eq_some.1 hk
      · obtain ⟨rfl, rfl⟩ := Code.pure_eq_some.1 hk
        obtain ⟨-, rfl⟩ | ⟨e, he, -⟩ := writeBlock_eq_some hr
        · exact .inl ⟨b, rfl, hfree, rfl⟩
        · cases he
      · obtain ⟨he, -⟩ | ⟨e', he, hf, rfl⟩ := writeBlock_eq_some hr
        · cases he
        · cases he
          exact .inr (.inl ⟨b, e, rfl, hfree, hf, rfl⟩)
    · cases hb'
  · obtain ⟨v, hv, rfl⟩ := Code.on_eq_some.1 hr
    obtain ⟨b', hb', -⟩ | ⟨hb', rfl, hno⟩ := Bitmap.bitmapAlloc_eq_some hv
    · cases hb'
    · refine .inr (.inr ⟨hb', rfl, Finset.eq_empty_of_forall_notMem fun n hn => ?_⟩)
      rw [Bitmap.freeBits, Finset.mem_filter, Finset.mem_range, hg.words] at hn
      rw [hno n hn.1] at hn
      cases hn.2

theorem blockAlloc_runs (hg : s.Geometry) (hc : s.unusedBlocks = s.freemap.freeBits.card) :
    Code.Runs (blockAlloc dev) s := by
  refine (Bitmap.bitmapAlloc_runs.on).bind fun b u hr => ?_
  obtain ⟨v, hv, rfl⟩ := Code.on_eq_some.1 hr
  obtain ⟨b', hb', hbit, hlt, rfl⟩ | ⟨hb', -⟩ := Bitmap.bitmapAlloc_eq_some hv
  · cases hb'
    rw [← hg.words] at hlt
    obtain ⟨h0, hblk⟩ := hg.free b hlt hbit
    have hpos : 0 < s.unusedBlocks := by
      rw [hc]
      exact Finset.card_pos.2 ⟨b, by simp [Bitmap.freeBits, hlt, hbit]⟩
    have hfree : s.Free b := ⟨h0, hblk, hlt, hbit⟩
    have hu : (s.take b).Used b := (Sfs.used_take_iff hfree).2 (.inl rfl)
    have hb := (hg.take hfree).bits
    simp only [Code.runs_get_bind, Code.runs_assert_bind, Code.runs_modify_bind]
    refine ⟨hpos, Code.Runs.bind (assertInuse_runs hb hu) fun a u hi => ?_⟩
    obtain ⟨-, -, rfl⟩ := (assertInuse_iff hb).1 hi
    exact Code.Runs.bind (writeBlock_runs (s := s.take b) h0 hblk) fun _ _ _ => Code.Runs.pure _
  · cases hb'

end

end Ucore
