/-
  What `sfs_bmap_get_nolock` and `sfs_bmap_load_nolock` leave behind when they fail.

  * `BmapStep`, `Sfs.bmapSteps`: the points at which a call can fail, in the order of the code;
    `Device.firstFailure` is the first one that does;
  * `Sfs.Undone`: everything is as before, except blocks that are free;
  * `bmapGet_ends`: a call returns the error of the first point that fails, and everything is undone
    unless that is the clearing of a new block, which is lost;
  * `bmap_atomic_iff`: so the calls are atomic exactly if no new block fails to be cleared.
-/
import Ucore.Fs.BlockCountRun

namespace Ucore

/-! ## Points of failure -/

/-- The allocation of a bit, or a request to the device. -/
inductive BmapStep where
  | alloc
  | request (req : Request)
  deriving DecidableEq

/-- The first of the steps that fails, with its error; `time` requests have been made, and there are
    `free` free blocks. -/
def Device.firstFailure (dev : Device) : List BmapStep → ℕ → ℕ → Option (BmapStep × Errno)
  | [], _, _ => none
  | .alloc :: l, time, free =>
    if free = 0 then some (.alloc, .noMem) else dev.firstFailure l time (free - 1)
  | .request req :: l, time, free =>
    match dev.fault time req with
    | some e => some (.request req, e)
    | none => dev.firstFailure l (time + 1) free

/-- A block is taken and cleared. -/
def allocSteps : List BmapStep := [.alloc, .request .clear]

/-- A block is taken and cleared, and its number is written to the entry block. -/
def entrySteps : List BmapStep := [.alloc, .request .clear, .request .read, .request .write]

/-- The steps of mapping entry `k` of `i`. -/
def Sfs.bmapSteps (s : Sfs) (i k : ℕ) (create : Bool) : List BmapStep :=
  if k < 12 then if s.bmap i k = 0 ∧ create = true then allocSteps else []
  else if (s.din i).indirect ≠ 0 then
    .request .read :: if s.bmap i k = 0 ∧ create = true then entrySteps else []
  else if create = true then .alloc :: .request .clear :: entrySteps else []

/-- The first step of mapping entry `k` of `i` that fails. -/
def Device.bmapFailure (dev : Device) (s : Sfs) (i k : ℕ) (create : Bool) :
    Option (BmapStep × Errno) :=
  dev.firstFailure (s.bmapSteps i k create) s.time s.unusedBlocks

variable {dev : Device} {I : Finset ℕ} {E : Set ℕ} {s t u : Sfs} {i j k b n len offset : ℕ}
  {req : Request} {e : Errno} {buf : Bytes} {l : List BmapStep} {time free : ℕ} {create : Bool}

theorem firstFailure_fault (h : dev.fault time req = some e) :
    dev.firstFailure (.request req :: l) time free = some (.request req, e) := by
  rw [Device.firstFailure, h]

theorem firstFailure_passes (h : dev.fault time req = none) :
    dev.firstFailure (.request req :: l) time free = dev.firstFailure l (time + 1) free := by
  rw [Device.firstFailure, h]

/-! ## Requests -/

theorem checkBlkno_run (h0 : b ≠ 0) (hlt : b < s.blocks) : checkBlkno b s = some (.ok (), s) := by
  unfold checkBlkno
  rw [Code.bind_ok (rfl : (Code.get : K Sfs) s = _)]
  exact if_pos ⟨h0, hlt⟩

theorem readBlock_ok (h0 : b ≠ 0) (hlt : b < s.blocks) (h : dev.fault s.time .read = none) :
    readBlock dev b s = some (.ok (s.disk b), s.wait 1) :=
  (Code.bind_ok (checkBlkno_run h0 hlt)).trans (Code.bind_ok (request_ok h))

theorem readBlock_error (h0 : b ≠ 0) (hlt : b < s.blocks) (h : dev.fault s.time .read = some e) :
    readBlock dev b s = some (.error e, s.wait 1) :=
  (Code.bind_ok (checkBlkno_run h0 hlt)).trans (Code.bind_error (request_error h))

theorem writeBlock_ok (h0 : b ≠ 0) (hlt : b < s.blocks) (h : dev.fault s.time req = none) :
    writeBlock dev req buf b s = some (.ok (), (s.wait 1).setBlock b buf) :=
  (Code.bind_ok (checkBlkno_run h0 hlt)).trans (Code.bind_ok (request_ok h))

theorem writeBlock_error (h0 : b ≠ 0) (hlt : b < s.blocks) (h : dev.fault s.time req = some e) :
    writeBlock dev req buf b s = some (.error e, s.wait 1) :=
  (Code.bind_ok (checkBlkno_run h0 hlt)).trans (Code.bind_error (request_error h))

section
variable (h0 : b ≠ 0) (hlt : b < s.blocks) (ho : offset < 4096) (hl : offset + len ≤ 4096)
include h0 hlt ho hl

theorem rbuf_ok (h : dev.fault s.time .read = none) :
    rbuf dev len b offset s = some (.ok ((s.disk b).from' offset), s.wait 1) :=
  (Code.assert_bind ⟨ho, hl⟩).trans (Code.bind_ok (readBlock_ok h0 hlt h))

theorem rbuf_error (h : dev.fault s.time .read = some e) :
    rbuf dev len b offset s = some (.error e, s.wait 1) :=
  (Code.assert_bind ⟨ho, hl⟩).trans (Code.bind_error (readBlock_error h0 hlt h))

theorem wbuf_ok (h : dev.fault s.time .read = none) (h' : dev.fault (s.time + 1) .write = none) :
    wbuf dev buf len b offset s =
      some (.ok (), (s.wait 2).setBlock b ((s.disk b).copy offset buf len)) :=
  (Code.assert_bind ⟨ho, hl⟩).trans ((Code.bind_ok (readBlock_ok h0 hlt h)).trans
    (writeBlock_ok (s := s.wait 1) h0 hlt h'))

theorem wbuf_read_error (h : dev.fault s.time .read = some e) :
    wbuf dev buf len b offset s = some (.error e, s.wait 1) :=
  (Code.assert_bind ⟨ho, hl⟩).trans (Code.bind_error (readBlock_error h0 hlt h))

theorem wbuf_write_error (h : dev.fault s.time .read = none)
    (h' : dev.fault (s.time + 1) .write = some e) :
    wbuf dev buf len b offset s = some (.error e, s.wait 2) :=
  (Code.assert_bind ⟨ho, hl⟩).trans ((Code.bind_ok (readBlock_ok h0 hlt h)).trans
    (writeBlock_error (s := s.wait 1) h0 hlt h'))

/-- The read, or the write, of `sfs_wbuf` fails. -/
theorem wbuf_error (h : dev.fault s.time .read = some e ∨
    dev.fault s.time .read = none ∧ dev.fault (s.time + 1) .write = some e) :
    ∃ n, wbuf dev buf len b offset s = some (.error e, s.wait n) := by
  obtain h | ⟨h, h'⟩ := h
  · exact ⟨1, wbuf_read_error h0 hlt ho hl h⟩
  · exact ⟨2, wbuf_write_error h0 hlt ho hl h h'⟩

end

/-! ## Undoing -/

namespace Bitmap

variable {bm : Bitmap}

/-- Giving back a bit that was free restores the bitmap. -/
theorem setBit_setBit (h : bm.bit b = true) : (bm.setBit b false).setBit b true = bm := by
  have hm : b % 32 < 32 := Nat.mod_lt _ (by omega)
  have hw : (bm.map (b / 32) ^^^ bitMask (b % 32)) ||| bitMask (b % 32) = bm.map (b / 32) := by
    refine BitVec.eq_of_getLsbD_eq fun j hj => ?_
    rw [BitVec.getLsbD_or, BitVec.getLsbD_xor, getLsbD_bitMask hm]
    have hbit : (bm.map (b / 32)).getLsbD (b % 32) = true := h
    by_cases hjb : j = b % 32
    · simp [hjb, hbit]
    · simp [hjb]
  unfold setBit
  simp only [Bool.false_eq_true, if_false, if_true, Function.update_self, Function.update_idem, hw,
    Function.update_eq_self]

end Bitmap

/-- Everything that a call may change is as before, except blocks that are free. -/
structure Sfs.Undone (s t : Sfs) : Prop where
  freemap : t.freemap = s.freemap
  unused : t.unusedBlocks = s.unusedBlocks
  blocks : t.blocks = s.blocks
  sin : t.sin = s.sin
  disk : ∀ c, ¬s.Free c → t.disk c = s.disk c

/-- Block `b`, which was free, has been taken, and nothing else is changed. -/
structure Sfs.Took (s u : Sfs) (b : ℕ) : Prop where
  free : s.Free b
  freemap : u.freemap = s.freemap.setBit b false
  unused : u.unusedBlocks + 1 = s.unusedBlocks
  blocks : u.blocks = s.blocks
  sin : u.sin = s.sin
  disk : ∀ c, c ≠ b → u.disk c = s.disk c

namespace Sfs.Undone

theorem refl (s : Sfs) : s.Undone s := ⟨rfl, rfl, rfl, rfl, fun _ _ => rfl⟩

theorem wait (h : s.Undone t) (n : ℕ) : s.Undone (t.wait n) :=
  ⟨h.freemap, h.unused, h.blocks, h.sin, h.disk⟩

theorem of_wait (h : (s.wait n).Undone t) : s.Undone t :=
  ⟨h.freemap, h.unused, h.blocks, h.sin, h.disk⟩

theorem used (h : s.Undone t) : t.Used b ↔ s.Used b := by
  unfold Used
  rw [h.freemap, h.blocks]

end Sfs.Undone

namespace Sfs.Took

theorem take (hb : s.Free b) (hpos : 0 < s.unusedBlocks) : s.Took (s.take b) b :=
  ⟨hb, rfl, Nat.sub_add_cancel hpos, rfl, rfl, fun _ _ => rfl⟩

theorem wait (h : s.Took u b) (n : ℕ) : s.Took (u.wait n) b :=
  ⟨h.free, h.freemap, h.unused, h.blocks, h.sin, h.disk⟩

theorem setBlock (h : s.Took u b) (m : Bytes) : s.Took (u.setBlock b m) b :=
  ⟨h.free, h.freemap, h.unused, h.blocks, h.sin, fun c hc => by
    rw [disk_setBlock, if_neg hc, h.disk c hc]⟩

theorem bit (h : s.Took u b) : u.freemap.bit n = if n = b then false else s.freemap.bit n := by
  rw [h.freemap, Bitmap.bit_setBit false h.free.2.2.2]

/-- What is free after the block was taken was free before. -/
theorem free_of_free (h : s.Took u b) (hn : u.Free n) : s.Free n := by
  obtain ⟨h0, hlt, hbits, hbit⟩ := hn
  rw [h.bit] at hbit
  rw [h.blocks] at hlt
  rw [h.freemap] at hbits
  split at hbit
  · cases hbit
  · exact ⟨h0, hlt, hbits, hbit⟩

/-- **The block is given back** when what was done since is undone. -/
theorem undo (h : s.Took u b) (h' : u.Undone t) : s.Undone (t.give b) where
  freemap := by
    change t.freemap.setBit b true = _
    rw [h'.freemap, h.freemap, Bitmap.setBit_setBit h.free.2.2.2]
  unused := by
    change t.unusedBlocks + 1 = _
    rw [h'.unused, h.unused]
  blocks := h'.blocks.trans h.blocks
  sin := h'.sin.trans h.sin
  disk c hc := (h'.disk c fun hf => hc (h.free_of_free hf)).trans
    (h.disk c fun e => hc (e ▸ h.free))

end Sfs.Took

/-! ## Allocation -/

theorem blockAlloc_full (h : Acct I E s) (h0 : s.unusedBlocks = 0) :
    blockAlloc dev s = some (.error .noMem, s) := by
  have hno : ∀ b, ¬s.Free b := fun b hb => by
    have hmem : b ∈ s.freemap.freeBits := by simp [Bitmap.freeBits, hb.2.2.1, hb.2.2.2]
    rw [Finset.card_eq_zero.1 (h.count.symm.trans h0)] at hmem
    exact Finset.notMem_empty b hmem
  obtain ⟨r, t, hr⟩ : Code.Runs (blockAlloc dev) s := h.blockAlloc_runs
  obtain ⟨b, -, hb, -⟩ | ⟨b, e, -, hb, -⟩ | ⟨rfl, rfl, -⟩ := blockAlloc_eq_some h.geo hr
  · exact absurd hb (hno b)
  · exact absurd hb (hno b)
  · exact hr

/-- With a free block, `sfs_block_alloc` takes it before it clears it. -/
theorem blockAlloc_take (dev : Device) (h : Acct I E s) (hpos : 0 < s.unusedBlocks) :
    ∃ b, s.Took (s.take b) b ∧
      blockAlloc dev s = (clearBlock dev b >>= fun _ => pure b : K ℕ) (s.take b) := by
  obtain ⟨r, v, hv⟩ : Code.Runs bitmapAlloc s.freemap := Bitmap.bitmapAlloc_runs
  obtain ⟨b, rfl, hbit, hlt, rfl⟩ | ⟨rfl, rfl, hno⟩ := Bitmap.bitmapAlloc_eq_some hv
  · rw [← h.geo.words] at hlt
    obtain ⟨h0, hblk⟩ := h.geo.free b hlt hbit
    have hb : s.Free b := ⟨h0, hblk, hlt, hbit⟩
    have htake := Sfs.Took.take hb hpos
    have hon : onFreemap bitmapAlloc s =
        some (.ok b, { s with freemap := s.freemap.setBit b false }) := Code.on_run hv
    have hin : assertInuse b (s.take b) = some (.ok (), s.take b) :=
      (assertInuse_iff (h.geo.take hb).bits).2
        ⟨(Sfs.used_take_iff hb).2 (.inl rfl), rfl, rfl⟩
    refine ⟨b, htake, ?_⟩
    refine (Code.bind_ok hon).trans ((Code.assert_bind hpos).trans ?_)
    exact Code.bind_ok hin
  · rw [h.count] at hpos
    obtain ⟨n, hn⟩ := Finset.card_pos.1 hpos
    rw [Bitmap.freeBits, Finset.mem_filter, Finset.mem_range, h.geo.words] at hn
    rw [hno n hn.1] at hn
    cases hn.2

/-- **`sfs_block_alloc`**: the block is taken, or it is taken and could not be cleared, or nothing
has happened. -/
theorem blockAlloc_outcome (dev : Device) (h : Acct I E s) :
    (s.unusedBlocks = 0 ∧ blockAlloc dev s = some (.error .noMem, s)) ∨
      (0 < s.unusedBlocks ∧ ∃ b,
        (dev.fault s.time .clear = none ∧ s.Took (((s.take b).wait 1).setBlock b fun _ => 0) b ∧
            blockAlloc dev s = some (.ok b, ((s.take b).wait 1).setBlock b fun _ => 0) ∧
            Acct I (insert b E) (((s.take b).wait 1).setBlock b fun _ => 0) ∨
          ∃ e, dev.fault s.time .clear = some e ∧ s.Took ((s.take b).wait 1) b ∧
            blockAlloc dev s = some (.error e, (s.take b).wait 1) ∧
            Acct I (insert b E) ((s.take b).wait 1))) := by
  obtain h0 | hpos := Nat.eq_zero_or_pos s.unusedBlocks
  · exact .inl ⟨h0, blockAlloc_full h h0⟩
  · obtain ⟨b, htook, hrun⟩ := blockAlloc_take dev h hpos
    have hb := htook.free
    have hacct := (h.take hb).wait 1
    refine .inr ⟨hpos, b, ?_⟩
    cases hf : dev.fault s.time .clear with
    | none =>
      refine .inl ⟨rfl, (htook.wait 1).setBlock _, hrun.trans ?_,
        hacct.setBlock_lent _ (Set.mem_insert b E)⟩
      exact Code.bind_ok (writeBlock_ok (s := s.take b) hb.1 hb.2.1 hf)
    | some e =>
      refine .inr ⟨e, rfl, htook.wait 1, hrun.trans ?_, hacct⟩
      exact Code.bind_error (writeBlock_error (s := s.take b) hb.1 hb.2.1 hf)

/-- What a call leaves that has failed at the step `p`: everything is undone, but a block that could
not be cleared is lost. -/
def Sfs.LeftAt (s t : Sfs) (p : BmapStep) : Prop :=
  if p = .request .clear then ∃ b, s.Free b ∧ t.freemap.bit b = false else s.Undone t

theorem Sfs.LeftAt.of_wait {p : BmapStep} (h : (s.wait n).LeftAt t p) : s.LeftAt t p := by
  unfold LeftAt at *
  split
  · rwa [if_pos ‹_›] at h
  · rw [if_neg ‹_›] at h
    exact h.of_wait

/-- **The allocation of a block and the write of its entry**, up to `failed_cleanup`. -/
theorem bmapAddEntry_outcome (dev : Device) (entp : ℕ) {ent : ℕ} (h : Acct I E s)
    (hent : s.Used ent) (hk : k < 1024) :
    match dev.firstFailure entrySteps s.time s.unusedBlocks with
    | none => ∃ b t, bmapAddEntry dev entp ent k s = some (.ok (ent, b), t) ∧
        t.blocks ≤ t.freemap.nbits ∧ t.Used b
    | some (p, e) => ∃ v, bmapAddEntry dev entp ent k s = failedCleanup entp ent e v ∧
        v.blocks ≤ v.freemap.nbits ∧ v.Used ent ∧
        if p = .request .clear then ∃ b, s.Took v b else s.Undone v := by
  rw [entrySteps, Device.firstFailure]
  obtain ⟨h0, hrun⟩ | ⟨hpos, b, ⟨hf, htook, hrun, ha⟩ | ⟨e, hf, htook, hrun, ha⟩⟩ :=
    blockAlloc_outcome dev h
  · rw [if_pos h0]
    exact ⟨s, Code.attempt_bind hrun, h.geo.bits, hent, .refl s⟩
  · rw [if_neg hpos.ne', firstFailure_passes hf]
    generalize hu : ((s.take b).wait 1).setBlock b (fun _ => 0) = u at htook hrun ha
    have htime : u.time = s.time + 1 := by rw [← hu]; rfl
    have hub : u.Used b := ha.lent_used (Set.mem_insert b E)
    have hue : u.Used ent := by
      refine ⟨hent.1, by rw [htook.blocks]; exact hent.2.1, ?_⟩
      rw [htook.bit, if_neg, hent.2.2]
      rintro rfl
      exact Sfs.Geometry.not_used_of_free htook.free hent
    have hne : ent ≠ b := fun e => Sfs.Geometry.not_used_of_free htook.free (e ▸ hent)
    -- the write fails, and the block is given back
    have hfail (e : Errno) (hw : dev.fault u.time .read = some e ∨
        dev.fault u.time .read = none ∧ dev.fault (u.time + 1) .write = some e) :
        ∃ v, bmapAddEntry dev entp ent k s = failedCleanup entp ent e v ∧
          v.blocks ≤ v.freemap.nbits ∧ v.Used ent ∧ s.Undone v := by
      obtain ⟨n, hwbuf⟩ : ∃ n, wbuf dev (Bytes.ofWord b) 4 ent (k * 4) u =
          some (.error e, u.wait n) := wbuf_error hue.1 hue.2.1 (by omega) (by omega) hw
      have hubn : (u.wait n).Used b := hub
      have hfree : blockFree b (u.wait n) = some (.ok (), (u.wait n).give b) :=
        (blockFree_iff (ha.wait n).geo.bits).2 ⟨hubn, rfl, rfl⟩
      have hundone := htook.undo ((Sfs.Undone.refl u).wait n)
      refine ⟨(u.wait n).give b, ?_, ha.geo.bits, hundone.used.2 hent, hundone⟩
      exact (Code.attempt_bind hrun).trans ((Code.attempt_bind hwbuf).trans (Code.bind_ok hfree))
    rw [← htime]
    cases hr : dev.fault u.time .read with
    | some e =>
      rw [firstFailure_fault hr]
      exact hfail e (.inl hr)
    | none =>
      rw [firstFailure_passes hr]
      cases hw : dev.fault (u.time + 1) .write with
      | some e =>
        rw [firstFailure_fault hw]
        exact hfail e (.inr ⟨hr, hw⟩)
      | none =>
        rw [firstFailure_passes hw]
        refine ⟨b, _, (Code.attempt_bind hrun).trans ((Code.attempt_bind (wbuf_ok hue.1 hue.2.1
          (by omega) (by omega) hr hw)).trans rfl), ha.geo.bits, hub⟩
  · rw [if_neg hpos.ne', firstFailure_fault hf]
    refine ⟨_, Code.attempt_bind hrun, ha.geo.bits, ?_, ⟨b, htook⟩⟩
    exact (Sfs.used_take_iff htook.free).2 (.inr hent)

/-! ## `sfs_bmap_get_nolock` -/

/-- What `x` does when `f` is the first failure: it returns its error, and leaves what such a
    failure leaves; without a failure it returns a block. -/
def Sfs.Ends (s : Sfs) (f : Option (BmapStep × Errno)) (x : K ℕ) : Prop :=
  match f with
  | none => ∃ b t, x s = some (.ok b, t)
  | some (p, e) => ∃ t, x s = some (.error e, t) ∧ s.LeftAt t p

theorem Sfs.Took.leftAt (h : s.Took t b) : s.LeftAt t (.request .clear) := by
  rw [LeftAt, if_pos rfl]
  exact ⟨b, h.free, by rw [h.bit, if_pos rfl]⟩

theorem Sfs.Undone.leftAt {p : BmapStep} (h : s.Undone t) (hp : p ≠ .request .clear) :
    s.LeftAt t p := by
  rwa [LeftAt, if_neg hp]

theorem failedCleanup_same {ent : ℕ} : failedCleanup ent ent e s = some (.error e, s) := by
  rw [failedCleanup, if_neg (not_not.2 rfl)]
  rfl

theorem failedCleanup_fresh {ent : ℕ} (hg : s.blocks ≤ s.freemap.nbits) (hu : s.Used ent) :
    failedCleanup 0 ent e s = some (.error e, s.give ent) := by
  rw [failedCleanup, if_pos hu.1]
  exact Code.bind_ok ((blockFree_iff hg).2 ⟨hu, rfl, rfl⟩)

theorem bmapGetOut_used (hg : s.blocks ≤ s.freemap.nbits) (hb : b = 0 ∨ s.Used b) :
    bmapGetOut b s = some (.ok b, s) := (bmapGetOut_iff hg).2 ⟨hb, rfl, rfl⟩

theorem bmapGetDirect_ends (h : Acct I E s) (hc : s.cached i = true) (hk : k < 12) :
    s.Ends (dev.bmapFailure s i k create) (bmapGetDirect dev i ⟨k, hk⟩ create) := by
  have hi := h.cached i hc
  rw [Device.bmapFailure, Sfs.bmapSteps, if_pos hk]
  by_cases h0 : s.bmap i k = 0 ∧ create = true
  · -- a new block
    have hnew : bmapGetDirect dev i ⟨k, hk⟩ create s = (blockAlloc dev >>= fun b => do
        Code.modify fun s => s.setDin i fun din =>
          { din with direct := Function.update din.direct ⟨k, hk⟩ b }
        bmapGetOut b : K ℕ) s := by
      rw [bmapGetDirect, Code.bind_ok (rfl : (Code.get : K Sfs) s = _), ← bmap_direct hc hk,
        if_pos h0]
    rw [if_pos h0, allocSteps, Device.firstFailure]
    obtain ⟨h0, hrun⟩ | ⟨hpos, b, ⟨hf, htook, hrun, ha⟩ | ⟨e, hf, htook, hrun, ha⟩⟩ :=
      blockAlloc_outcome dev h
    · rw [if_pos h0]
      exact ⟨s, hnew.trans (Code.bind_error hrun), (Sfs.Undone.refl s).leftAt (by simp)⟩
    · rw [if_neg hpos.ne', firstFailure_passes hf]
      generalize ((s.take b).wait 1).setBlock b (fun _ => 0) = u at htook hrun ha
      refine ⟨b, u.setDin i fun din =>
        { din with direct := Function.update din.direct ⟨k, hk⟩ b }, ?_⟩
      refine hnew.trans ((Code.bind_ok hrun).trans ((Code.bind_ok rfl).trans ?_))
      exact bmapGetOut_used ha.geo.bits (.inr (ha.lent_used (Set.mem_insert b E)))
    · rw [if_neg hpos.ne', firstFailure_fault hf]
      exact ⟨_, hnew.trans (Code.bind_error hrun), htook.leftAt⟩
  · rw [if_neg h0]
    refine ⟨s.bmap i k, s, ?_⟩
    rw [bmapGetDirect, Code.bind_ok (rfl : (Code.get : K Sfs) s = _),
      ← bmap_direct hc hk, if_neg h0]
    exact bmapGetOut_used h.geo.bits (h.data_zero_or_used hi (by omega))

theorem bmapGetIndirect_error {index : ℕ}
    (h : bmapGetSub dev (s.din i).indirect index create s = some (.error e, t)) :
    bmapGetIndirect dev i index create s = some (.error e, t) :=
  (Code.bind_ok rfl).trans (Code.bind_error h)

theorem bmapGetIndirect_ok {index ent : ℕ}
    (h : bmapGetSub dev (s.din i).indirect index create s = some (.ok (ent, b), t))
    (hent : ent = (s.din i).indirect ∨ (s.din i).indirect = 0) (hg : t.blocks ≤ t.freemap.nbits)
    (hb : b = 0 ∨ t.Used b) : ∃ v, bmapGetIndirect dev i index create s = some (.ok b, v) := by
  have hrun : bmapGetIndirect dev i index create s = (if ent ≠ (s.din i).indirect then do
      Code.assert ((s.din i).indirect = 0)
      Code.modify fun s => s.setDin i fun din => { din with indirect := ent }
      bmapGetOut b
    else bmapGetOut b : K ℕ) t := (Code.bind_ok rfl).trans (Code.bind_ok h)
  split at hrun
  · rename_i hne
    refine ⟨t.setDin i fun din => { din with indirect := ent }, ?_⟩
    refine hrun.trans ((Code.assert_bind (hent.resolve_left hne)).trans
      ((Code.bind_ok rfl).trans ?_))
    exact bmapGetOut_used hg hb
  · exact ⟨t, hrun.trans (bmapGetOut_used hg hb)⟩

/-- There is an entry block. -/
theorem bmapGetIndirect_ends_old (h : Acct I E s) (hc : s.cached i = true) (hk : ¬k < 12)
    (hk' : k < 1036) (hn : (s.din i).indirect ≠ 0) :
    s.Ends (dev.bmapFailure s i k create) (bmapGetIndirect dev i (k - 12) create) := by
  have hi := h.cached i hc
  have hu := h.indirect_used hi (by rw [Acct.dinOf_of_cached hc]; exact hn)
  rw [Acct.dinOf_of_cached hc] at hu
  have hsub : bmapGetSub dev (s.din i).indirect (k - 12) create s =
      (rbuf dev 4 (s.din i).indirect ((k - 12) * 4) >>= fun m =>
        if m.word 4 0 ≠ 0 ∨ create = false then pure ((s.din i).indirect, m.word 4 0)
        else bmapAddEntry dev (s.din i).indirect (s.din i).indirect (k - 12) : K (ℕ × ℕ)) s := by
    rw [bmapGetSub, Code.assert_bind (by omega), if_pos hn]
  rw [Device.bmapFailure, Sfs.bmapSteps, if_neg hk, if_pos hn]
  cases hf : dev.fault s.time .read with
  | some e =>
    rw [firstFailure_fault hf]
    have hread : rbuf dev 4 (s.din i).indirect ((k - 12) * 4) s = some (.error e, s.wait 1) :=
      rbuf_error hu.1 hu.2.1 (by omega) (by omega) hf
    exact ⟨s.wait 1, bmapGetIndirect_error (hsub.trans (Code.bind_error hread)),
      ((Sfs.Undone.refl s).wait 1).leftAt (by simp)⟩
  | none =>
    rw [firstFailure_passes hf]
    replace hsub := hsub.trans (Code.bind_ok (rbuf_ok hu.1 hu.2.1 (by omega) (by omega) hf))
    rw [Bytes.word_from', ← bmap_indirect hc hk hn] at hsub
    by_cases h0 : s.bmap i k = 0 ∧ create = true
    · rw [if_neg (by simp [h0])] at hsub
      rw [if_pos h0]
      have hadd := bmapAddEntry_outcome dev (s.din i).indirect (h.wait 1)
        (show (s.wait 1).Used _ from hu) (k := k - 12) (by omega)
      change match dev.firstFailure entrySteps (s.time + 1) s.unusedBlocks with
        | none => _
        | some (p, e) => _ at hadd
      split at hadd
      · rename_i hff
        rw [hff]
        obtain ⟨b, t, hrun, hg, hb⟩ := hadd
        exact ⟨b, bmapGetIndirect_ok (hsub.trans hrun) (.inl rfl) hg (.inr hb)⟩
      · rename_i p e hff
        rw [hff]
        obtain ⟨v, hrun, -, -, hv⟩ := hadd
        refine ⟨v, bmapGetIndirect_error (hsub.trans (hrun.trans failedCleanup_same)),
          .of_wait (n := 1) ?_⟩
        split at hv
        · rename_i hp
          obtain ⟨b, hb⟩ := hv
          exact hp ▸ hb.leftAt
        · exact hv.leftAt ‹_›
    · rw [if_pos (by
        rw [← Bool.not_eq_true]
        exact not_and_or.1 h0)] at hsub
      rw [if_neg h0]
      exact ⟨_, bmapGetIndirect_ok hsub (.inl rfl) h.geo.bits (h.data_zero_or_used hi hk')⟩

/-- There is no entry block. -/
theorem bmapGetIndirect_ends_fresh (h : Acct I E s) (hk : ¬k < 12) (hk' : k < 1036)
    (hn : (s.din i).indirect = 0) :
    s.Ends (dev.bmapFailure s i k create) (bmapGetIndirect dev i (k - 12) create) := by
  have hsub : bmapGetSub dev (s.din i).indirect (k - 12) create s =
      (if create = false then pure (0, 0)
        else blockAlloc dev >>= fun ent => bmapAddEntry dev 0 ent (k - 12) : K (ℕ × ℕ)) s := by
    rw [bmapGetSub, Code.assert_bind (by omega), hn, if_neg (not_not.2 rfl)]
  rw [Device.bmapFailure, Sfs.bmapSteps, if_neg hk, if_neg (not_not.2 hn)]
  cases create with
  | false =>
    rw [if_pos rfl] at hsub
    exact ⟨0, bmapGetIndirect_ok hsub (.inr hn) h.geo.bits (.inl rfl)⟩
  | true =>
    rw [if_neg (by simp)] at hsub
    rw [if_pos rfl, Device.firstFailure]
    obtain ⟨h0, hrun⟩ | ⟨hpos, ent, ⟨hf, htook, hrun, ha⟩ | ⟨e, hf, htook, hrun, ha⟩⟩ :=
      blockAlloc_outcome dev h
    · rw [if_pos h0]
      exact ⟨s, bmapGetIndirect_error (hsub.trans (Code.bind_error hrun)),
        (Sfs.Undone.refl s).leftAt (by simp)⟩
    · rw [if_neg hpos.ne', firstFailure_passes hf]
      replace hsub := hsub.trans (Code.bind_ok hrun)
      generalize hu : ((s.take ent).wait 1).setBlock ent (fun _ => 0) = u at hsub htook ha
      have htime : u.time = s.time + 1 := by rw [← hu]; rfl
      have hent : u.Used ent := ha.lent_used (Set.mem_insert ent E)
      have hadd := bmapAddEntry_outcome dev 0 ha hent (k := k - 12) (by omega)
      rw [htime, (Nat.eq_sub_of_add_eq htook.unused : u.unusedBlocks = _)] at hadd
      split at hadd
      · rename_i hff
        rw [hff]
        obtain ⟨b, t, hadd, hg, hb⟩ := hadd
        exact ⟨b, bmapGetIndirect_ok (hsub.trans hadd) (.inr hn) hg (.inr hb)⟩
      · rename_i p e hff
        rw [hff]
        obtain ⟨v, hadd, hg, hv, hleft⟩ := hadd
        refine ⟨v.give ent, bmapGetIndirect_error
          (hsub.trans (hadd.trans (failedCleanup_fresh hg hv))), ?_⟩
        split at hleft
        · -- the entry block is given back, the other one is lost
          rename_i hp
          obtain ⟨b, hb⟩ := hleft
          have hne : b ≠ ent := fun e => Sfs.Geometry.not_used_of_free hb.free (e ▸ hent)
          rw [hp, Sfs.LeftAt, if_pos rfl]
          refine ⟨b, htook.free_of_free hb.free, ?_⟩
          change (v.freemap.setBit ent true).bit b = false
          rw [Bitmap.bit_setBit true hv.2.2, if_neg hne, hb.bit, if_pos rfl]
        · exact (htook.undo hleft).leftAt ‹_›
    · rw [if_neg hpos.ne', firstFailure_fault hf]
      exact ⟨_, bmapGetIndirect_error (hsub.trans (Code.bind_error hrun)), htook.leftAt⟩

/-- **`sfs_bmap_get_nolock` and its failures.** -/
theorem bmapGet_ends (h : Acct I E s) (hc : s.cached i = true) (hk : k < 1036) :
    s.Ends (dev.bmapFailure s i k create) (bmapGet dev i k create) := by
  unfold bmapGet
  split
  · rename_i hd
    exact bmapGetDirect_ends h hc hd
  · rename_i hd
    rw [if_pos (by omega)]
    by_cases hn : (s.din i).indirect = 0
    · exact bmapGetIndirect_ends_fresh h hd hk hn
    · exact bmapGetIndirect_ends_old h hc hd hk hn

/-! ## Atomicity -/

/-- The accounts, the map of `i` and its number of blocks are as before. -/
structure Sfs.Restored (s : Sfs) (i : ℕ) (t : Sfs) : Prop where
  freemap : t.freemap = s.freemap
  unused : t.unusedBlocks = s.unusedBlocks
  direct : (t.din i).direct = (s.din i).direct
  indirect : (t.din i).indirect = (s.din i).indirect
  blocks : (t.din i).blocks = (s.din i).blocks
  entries : (s.din i).indirect ≠ 0 → ∀ n < 1024,
    (t.disk (s.din i).indirect).word 4 (n * 4) = (s.disk (s.din i).indirect).word 4 (n * 4)

/-- If a step fails, `f` being the first one, then `x` returns its error and has changed nothing. -/
def Sfs.Atomic (s : Sfs) (i : ℕ) (f : Option (BmapStep × Errno)) (x : K ℕ) : Prop :=
  ∀ p e, f = some (p, e) → ∃ t, x s = some (.error e, t) ∧ s.Restored i t

theorem Sfs.Undone.restored (h : s.Undone t) (ha : Acct I E s) (hc : s.cached i = true) :
    s.Restored i t := by
  have hdin : t.din i = s.din i := congrArg SfsInode.din (congrFun h.sin i)
  refine ⟨h.freemap, h.unused, by rw [hdin], by rw [hdin], by rw [hdin], fun hn n _ => ?_⟩
  have hdi := Acct.dinOf_of_cached hc
  have hu := ha.indirect_used (ha.cached i hc) (by rwa [hdi])
  rw [hdi] at hu
  rw [h.disk _ fun hf => Sfs.Geometry.not_used_of_free hf hu]

/-- A call that ends so is atomic unless the clearing of a new block fails. -/
theorem atomic_iff (h : Acct I E s) (hc : s.cached i = true) {f : Option (BmapStep × Errno)}
    {x : K ℕ} (hx : ∀ p e, f = some (p, e) → ∃ t, x s = some (.error e, t) ∧ s.LeftAt t p) :
    s.Atomic i f x ↔ ∀ e, f ≠ some (.request .clear, e) := by
  constructor
  · intro ha e hf
    obtain ⟨t, ht, hr⟩ := ha _ e hf
    obtain ⟨t', ht', hl⟩ := hx _ e hf
    cases ht.symm.trans ht'
    rw [Sfs.LeftAt, if_pos rfl] at hl
    obtain ⟨b, hb, hbit⟩ := hl
    rw [hr.freemap, hb.2.2.2] at hbit
    cases hbit
  · intro hf p e hp
    obtain ⟨t, ht, hl⟩ := hx p e hp
    rw [Sfs.LeftAt, if_neg fun he => hf e (by rw [hp, he])] at hl
    exact ⟨t, ht, hl.restored h hc⟩

theorem Sfs.Ends.left {f : Option (BmapStep × Errno)} {x : K ℕ} (h : s.Ends f x) {p : BmapStep}
    (hf : f = some (p, e)) : ∃ t, x s = some (.error e, t) ∧ s.LeftAt t p := by
  rw [hf] at h
  exact h

theorem bmapLoad_error (hle : k ≤ (s.din i).blocks)
    (h : bmapGet dev i k (k = (s.din i).blocks) s = some (.error e, t)) :
    bmapLoad dev i k s = some (.error e, t) :=
  (Code.bind_ok rfl).trans ((Code.assert_bind hle).trans (Code.bind_error h))

/-- **Mapping a block is atomic** exactly if the first step to fail, if any, is not the clearing of
a new block: that block stays taken. -/
theorem bmap_atomic_iff (h : Acct I E s) (hc : s.cached i = true) (hk : k < 1036) :
    (dev.bmapFailure s i k create = none → ∃ b t, bmapGet dev i k create s = some (.ok b, t)) ∧
      (s.Atomic i (dev.bmapFailure s i k create) (bmapGet dev i k create) ↔
        ∀ e, dev.bmapFailure s i k create ≠ some (.request .clear, e)) ∧
      (k ≤ (s.din i).blocks →
        (s.Atomic i (dev.bmapFailure s i k (k = (s.din i).blocks)) (bmapLoad dev i k) ↔
          ∀ e, dev.bmapFailure s i k (k = (s.din i).blocks) ≠ some (.request .clear, e))) := by
  refine ⟨fun hf => ?_, atomic_iff h hc fun p e hp => (bmapGet_ends h hc hk).left hp,
    fun hle => atomic_iff h hc fun p e hp => ?_⟩
  · have hends : s.Ends (dev.bmapFailure s i k create) (bmapGet dev i k create) :=
      bmapGet_ends h hc hk
    rwa [hf] at hends
  · obtain ⟨t, ht, hl⟩ := (bmapGet_ends h hc hk).left hp
    exact ⟨t, bmapLoad_error hle ht, hl⟩

/-- The empty file of the image is in memory. -/
theorem acct_loadedFile : Acct {1, 3} ∅ (Acct.loaded emptyFileImage 3) :=
  mounted_emptyFileImage.acct.load (by decide) rfl (by decide +kernel)

/-- The number of the first data block cannot be written to a new entry block. -/
theorem bmap_atomic_muted :
    mutedDevice.bmapFailure (Acct.loaded emptyFileImage 3) 3 12 true =
        some (.request .write, .inval) ∧
      (Acct.loaded emptyFileImage 3).Atomic 3
        (mutedDevice.bmapFailure (Acct.loaded emptyFileImage 3) 3 12 true)
        (bmapGet mutedDevice 3 12 true) := by
  have hf : mutedDevice.bmapFailure (Acct.loaded emptyFileImage 3) 3 12 true =
    some (.request .write, .inval) := by decide +kernel
  refine ⟨hf, (bmap_atomic_iff acct_loadedFile rfl (by decide)).2.1.2 fun e he => ?_⟩
  rw [hf] at he
  cases he

/-- A block that cannot be cleared stays taken, and is not given back. -/
theorem bmap_uncleared :
    Acct {1, 3} ∅ (Acct.loaded emptyFileImage 3) ∧
      ¬(Acct.loaded emptyFileImage 3).Atomic 3
        (stuckDevice.bmapFailure (Acct.loaded emptyFileImage 3) 3 0 true)
        (bmapGet stuckDevice 3 0 true) ∧
      ¬(Acct.loaded emptyFileImage 3).Atomic 3
        (stuckDevice.bmapFailure (Acct.loaded emptyFileImage 3) 3 0 true)
        (bmapLoad stuckDevice 3 0) := by
  have hf : stuckDevice.bmapFailure (Acct.loaded emptyFileImage 3) 3 0 true =
    some (.request .clear, .inval) := by decide +kernel
  -- one block fewer is free
  have hleft (x : K ℕ) (hx : (x (Acct.loaded emptyFileImage 3)).map (fun r => r.2.unusedBlocks) =
      some 3) : ¬(Acct.loaded emptyFileImage 3).Atomic 3
        (stuckDevice.bmapFailure (Acct.loaded emptyFileImage 3) 3 0 true) x := fun ha => by
    obtain ⟨t, ht, hr⟩ := ha _ _ hf
    rw [ht] at hx
    have h3 : t.unusedBlocks = 3 := Option.some.inj hx
    rw [hr.unused] at h3
    exact absurd h3 (by decide)
  exact ⟨acct_loadedFile, hleft _ (by decide +kernel), hleft _ (by decide +kernel)⟩

end Ucore
