/-
  `vop_ref_inc`, `vop_ref_dec` and `sfs_load_inode`: the inodes in memory and their references.

  * `Sfs.inode`: an inode as it is in memory, if it is; `Sfs.refs`: its references; `Sfs.incr`: the
    inode with one reference more;
  * `Sfs.Moves`: only inodes have come to memory, left it, or have got another count;
  * `loadInode_gained`, `vopRefDec_incr`: a reference is taken, and given back;
  * `Held`: a node has one reference more, which is dropped, or passed on.
-/
import Ucore.Fs.Dirent

namespace Ucore

/-! ## The code -/

def vopRefInc (ino : ℕ) : K Unit :=
  Code.modify fun s => s.setSin ino fun sin => { sin with refCount := sin.refCount + 1 }

/-- `vop_ref_dec`; an error of `vop_reclaim` is only reported. -/
def vopRefDec (dev : Device) (ino : ℕ) : K Unit := do
  let s ← Code.get
  Code.assert (0 < (s.sin ino).refCount)
  Code.modify fun s => s.setSin ino fun sin => { sin with refCount := sin.refCount - 1 }
  if (s.sin ino).refCount - 1 = 0 then do
    let _ ← Code.attempt (reclaim dev ino)
    pure ()
  else pure ()

/-- `sfs_lookup_once`; a node is the number of its inode. -/
def lookupOnce (dev : Device) (ino : ℕ) (name : List UInt8) : K ℕ := do
  let (_, child) ← direntSearch dev ino name
  loadInode dev child
  pure child

/-! ## Inodes in memory -/

namespace Sfs

/-- Inode `j` as it is in memory. -/
def inode (s : Sfs) (j : ℕ) : Option SfsInode := if s.cached j = true then some (s.sin j) else none

/-- The references to inode `j`; there are none if it is not in memory. -/
def refs (s : Sfs) (j : ℕ) : ℤ := ((s.inode j).map SfsInode.refCount).getD 0

/-- Inode `j` as `sfs_load_inode` leaves it. -/
def taken (s : Sfs) (j : ℕ) : SfsInode :=
  match s.inode j with
  | some sin => { sin with
      refCount := sin.refCount + 1
      reclaimCount := if sin.refCount + 1 = 1 then sin.reclaimCount + 1 else sin.reclaimCount }
  | none => ⟨.ofBytes (s.disk j), false, 1, 1⟩

/-- Inode `j` with one reference more; it is read if it is not in memory. -/
def incr (s : Sfs) (j : ℕ) : SfsInode :=
  match s.inode j with
  | some sin => { sin with refCount := sin.refCount + 1 }
  | none => ⟨.ofBytes (s.disk j), false, 1, 1⟩

/-- `t` differs from `s` in the time and in the inodes in memory, which are `m`. -/
structure Moves (s t : Sfs) (m : ℕ → Option SfsInode) : Prop where
  blocks : t.blocks = s.blocks
  freemap : t.freemap = s.freemap
  unused : t.unusedBlocks = s.unusedBlocks
  superDirty : t.superDirty = s.superDirty
  disk : t.disk = s.disk
  inode : t.inode = m

end Sfs

variable {dev : Device} {I : Finset ℕ} {E : Set ℕ} {s t u : Sfs} {i j n : ℕ}
  {m m' : ℕ → Option SfsInode} {sin : SfsInode}

theorem inode_of_cached (h : s.cached i = true) : s.inode i = some (s.sin i) := if_pos h

theorem inode_eq_some : s.inode i = some sin ↔ s.cached i = true ∧ s.sin i = sin := by
  unfold Sfs.inode
  split
  · rename_i h
    simp [h]
  · rename_i h
    simp [h]

theorem inode_eq_none : s.inode i = none ↔ s.cached i = false := by
  unfold Sfs.inode
  split
  · rename_i h
    simp [h]
  · rename_i h
    simpa using h

theorem dinOf_inode : s.dinOf i = ((s.inode i).map SfsInode.din).getD (.ofBytes (s.disk i)) := by
  unfold Sfs.dinOf Sfs.inode
  split <;> rfl

/-- A reference does not change the disk inode. -/
theorem din_incr : (s.incr i).din = s.dinOf i := by
  rw [dinOf_inode, Sfs.incr]
  cases s.inode i <;> rfl

theorem inode_setSin {f : SfsInode → SfsInode} (hc : s.cached i = true) :
    (s.setSin i f).inode = Function.update s.inode i (some (f (s.sin i))) := by
  funext j
  by_cases hj : j = i
  · subst hj
    rw [Function.update_self, inode_of_cached (s := s.setSin j f) hc, Sfs.sin_setSin, if_pos rfl]
  · rw [Function.update_of_ne hj, Sfs.inode, Sfs.inode, Sfs.sin_setSin, if_neg hj]
    rfl

namespace Sfs.Moves

theorem refl (s : Sfs) : s.Moves s s.inode := ⟨rfl, rfl, rfl, rfl, rfl, rfl⟩

theorem wait (h : s.Moves t m) (n : ℕ) : s.Moves (t.wait n) m :=
  ⟨h.blocks, h.freemap, h.unused, h.superDirty, h.disk, h.inode⟩

theorem trans (h : s.Moves t m) (h' : t.Moves u m') : s.Moves u m' :=
  ⟨h'.blocks.trans h.blocks, h'.freemap.trans h.freemap, h'.unused.trans h.unused,
    h'.superDirty.trans h.superDirty, h'.disk.trans h.disk, h'.inode⟩

theorem setSin {f : SfsInode → SfsInode} (hc : s.cached i = true) :
    s.Moves (s.setSin i f) (Function.update s.inode i (some (f (s.sin i)))) :=
  ⟨rfl, rfl, rfl, rfl, rfl, inode_setSin hc⟩

end Sfs.Moves

/-! ## References -/

theorem vopRefInc_run (h : Acct I E s) (hc : s.cached i = true) :
    ∃ t, vopRefInc i s = some (.ok (), t) ∧ Acct I E t ∧
      s.Moves t (Function.update s.inode i (some (s.incr i))) := by
  have hincr : s.incr i = { s.sin i with refCount := (s.sin i).refCount + 1 } := by
    rw [Sfs.incr, inode_of_cached hc]
  refine ⟨_, rfl, h.setSin_same hc rfl rfl rfl fun hd => ⟨hd, Nat.le_refl _⟩, ?_⟩
  rw [hincr]
  exact .setSin hc

/-- The part of `sfs_load_inode` that reads an inode. -/
def readInode (dev : Device) (i : ℕ) : K Bytes := do
  kmalloc dev
  assertInuse i
  let m ← rbuf dev 64 i 0
  Code.assert ((DiskInode.ofBytes m).nlinks ≠ 0)
  kmalloc dev
  pure m

theorem readInode_reads (h : Acct I E s) (hi : i ∈ I)
    (hl : (DiskInode.ofBytes (s.disk i)).nlinks ≠ 0) :
    s.Reads dev (readInode dev i) (.ok (s.disk i)) := by
  have hu := h.inode_used hi
  refine kmalloc_reads.bind fun n => ?_
  have hin : (s.wait n).Reads dev (assertInuse i) (.ok ()) :=
    ⟨0, _, (assertInuse_iff (h.wait n).geo.bits).2 ⟨hu, rfl, rfl⟩, .inl rfl⟩
  refine hin.bind fun m => ?_
  rw [Sfs.wait_wait]
  exact (rbuf_reads_start (s := s.wait (n + m)) hu.1 hu.2.1 (by omega)).bind fun _ =>
    .assert hl (kmalloc_reads.bind fun _ => .pure _)

theorem loadInode_uncached (hc : s.cached i = false) :
    loadInode dev i s = (readInode dev i >>= fun m => Code.modify fun s =>
      { s with
        cached := Function.update s.cached i true
        sin := Function.update s.sin i ⟨DiskInode.ofBytes m, false, 1, 1⟩ } : K Unit) s := by
  rw [loadInode, Code.bind_ok (rfl : (Code.get : K Sfs) s = _), if_neg (by rw [hc]; decide),
    readInode]
  simp only [bind_assoc, pure_bind]

/-- Inode `n` has been taken. -/
structure Gained (I : Finset ℕ) (E : Set ℕ) (s : Sfs) (n : ℕ) (t : Sfs) : Prop where
  acct : Acct I E t
  moves : s.Moves t (Function.update s.inode n (some (s.taken n)))

/-- **`sfs_load_inode`** takes a reference, or a request fails. -/
theorem loadInode_gained (dev : Device) (h : Acct I E s) (hi : i ∈ I)
    (hl : (s.dinOf i).nlinks ≠ 0) :
    ∃ r t, loadInode dev i s = some (r, t) ∧
      ((r = .ok () ∧ Gained I E s i t) ∨ dev.Faulty ∧ (∃ e, r = .error e) ∧ ∃ n, t = s.wait n) := by
  cases hc : s.cached i with
  | true =>
    have hsin := inode_of_cached hc
    have hrun : loadInode dev i s = some (.ok (), s.setSin i fun sin =>
        { sin with
          refCount := sin.refCount + 1
          reclaimCount := if sin.refCount + 1 = 1 then sin.reclaimCount + 1
            else sin.reclaimCount }) := by
      rw [loadInode, Code.bind_ok (rfl : (Code.get : K Sfs) s = _), if_pos hc]
      rfl
    refine ⟨_, _, hrun, .inl ⟨rfl, h.setSin_same hc rfl rfl rfl fun hd => ⟨hd, Nat.le_refl _⟩, ?_⟩⟩
    have htaken : s.taken i = { s.sin i with
        refCount := (s.sin i).refCount + 1
        reclaimCount := if (s.sin i).refCount + 1 = 1 then (s.sin i).reclaimCount + 1
          else (s.sin i).reclaimCount } := by
      rw [Sfs.taken, hsin]
    rw [htaken]
    exact .setSin hc
  | false =>
    have hnone := inode_eq_none.2 hc
    have hdin : s.dinOf i = .ofBytes (s.disk i) := by rw [dinOf_inode, hnone]; rfl
    rw [hdin] at hl
    have hload : loadInode dev i s = _ := loadInode_uncached hc
    obtain ⟨n, r, hr, rfl | ⟨hf, e, rfl⟩⟩ : s.Reads dev (readInode dev i) _ :=
      readInode_reads h hi hl
    · refine ⟨_, _, hload.trans (Code.bind_ok hr), .inl ⟨rfl, ?_, ?_⟩⟩
      · exact (h.wait n).load hi hc hl
      · refine ⟨rfl, rfl, rfl, rfl, rfl, ?_⟩
        funext j
        by_cases hj : j = i
        · subst hj
          rw [Function.update_self, Sfs.taken, hnone]
          simp [Sfs.inode]
        · rw [Function.update_of_ne hj]
          simp [Sfs.inode, Sfs.wait, hj]
    · exact ⟨_, _, hload.trans (Code.bind_error hr), .inr ⟨hf, ⟨e, rfl⟩, n, rfl⟩⟩

/-- An inode that is referenced, or not in memory. -/
theorem taken_eq_incr (hpos : ∀ sin, s.inode i = some sin → 0 < sin.refCount) :
    s.taken i = s.incr i := by
  rw [Sfs.taken, Sfs.incr]
  cases hs : s.inode i with
  | none => rfl
  | some sin =>
    have hp := hpos sin hs
    dsimp only
    rw [if_neg (by omega)]

/-- There are more references. -/
theorem vopRefDec_more (dev : Device) (h : Acct I E s) (hin : s.inode i = some sin)
    (hn : 1 < sin.refCount) : ∃ t, vopRefDec dev i s = some (.ok (), t) ∧ Acct I E t ∧
      s.Moves t (Function.update s.inode i (some { sin with refCount := sin.refCount - 1 })) := by
  obtain ⟨hc, rfl⟩ := inode_eq_some.1 hin
  refine ⟨s.setSin i fun sin => { sin with refCount := sin.refCount - 1 }, ?_,
    h.setSin_same hc rfl rfl rfl fun hd => ⟨hd, Nat.le_refl _⟩, .setSin hc⟩
  unfold vopRefDec
  rw [Code.bind_ok (rfl : (Code.get : K Sfs) s = _), Code.assert_bind (by omega)]
  refine (Code.bind_ok rfl).trans ?_
  rw [if_neg (by omega)]
  rfl

/-- The last reference to a clean inode: the inode leaves the memory. -/
theorem vopRefDec_last (dev : Device) (h : Acct I E s) (hin : s.inode i = some sin)
    (hn : sin.refCount = 1) (hr : sin.reclaimCount = 1) (hd : sin.dirty = false) :
    ∃ t, vopRefDec dev i s = some (.ok (), t) ∧ Acct I E t ∧
      s.Moves t (Function.update s.inode i none) := by
  obtain ⟨hc, rfl⟩ := inode_eq_some.1 hin
  obtain ⟨u, hu⟩ : ∃ u, u = s.setSin i fun sin => { sin with refCount := sin.refCount - 1 } :=
    ⟨_, rfl⟩
  obtain ⟨v, hv⟩ :
      ∃ v, v = u.setSin i fun sin => { sin with reclaimCount := sin.reclaimCount - 1 } :=
    ⟨_, rfl⟩
  have husin : u.sin i = { s.sin i with refCount := (s.sin i).refCount - 1 } := by
    rw [hu, Sfs.sin_setSin, if_pos rfl]
  have hvsin : v.sin i = { u.sin i with reclaimCount := (u.sin i).reclaimCount - 1 } := by
    rw [hv, Sfs.sin_setSin, if_pos rfl]
  have hau : Acct I E u := hu ▸ h.setSin_same hc rfl rfl rfl fun hd => ⟨hd, Nat.le_refl _⟩
  have hcu : u.cached i = true := by
    rw [hu]
    exact hc
  have hav : Acct I E v := hv ▸ hau.setSin_same hcu rfl rfl rfl fun hd => ⟨hd, Nat.le_refl _⟩
  have hdv : (v.sin i).dirty = false := by
    rw [hvsin, husin]
    exact hd
  have hlv : (v.din i).nlinks ≠ 0 := by
    rw [Sfs.din, hvsin, husin]
    exact (h.links i hc).1
  obtain ⟨t, ht⟩ : ∃ t, t = { v with cached := Function.update v.cached i false } := ⟨_, rfl⟩
  -- `sfs_reclaim` finds nothing to write
  have hfsync : fsync dev i v = some (.ok (), v) := by
    rw [fsync, Code.bind_ok (rfl : (Code.get : K Sfs) v = _), if_neg (by rw [hdv]; decide)]
    rfl
  have hfree : reclaimFree i v = some (.ok (), t) := by
    rw [reclaimFree, Code.bind_ok (rfl : (Code.get : K Sfs) v = _)]
    refine (Code.bind_ok rfl).trans ?_
    rw [if_neg hlv, ht]
    rfl
  have hreclaim : reclaim dev i u = some (.ok (), t) := by
    rw [reclaim, Code.bind_ok (rfl : (Code.get : K Sfs) u = _),
      Code.assert_bind (by rw [husin]; dsimp only; omega)]
    have hlu : (u.din i).nlinks ≠ 0 := by
      rw [Sfs.din, husin]
      exact (h.links i hc).1
    have hdec : (Code.modify fun s : Sfs => s.setSin i fun sin =>
        { sin with reclaimCount := sin.reclaimCount - 1 } : K Unit) u = some (.ok (), v) := by
      rw [hv]
      rfl
    refine (Code.bind_ok hdec).trans ?_
    rw [if_neg (by rw [husin]; dsimp only; omega), if_neg hlu]
    exact (Code.bind_ok hfsync).trans hfree
  refine ⟨t, ?_, ?_, ?_⟩
  · unfold vopRefDec
    rw [Code.bind_ok (rfl : (Code.get : K Sfs) s = _), Code.assert_bind (by omega)]
    have hdec : (Code.modify fun s : Sfs => s.setSin i fun sin =>
        { sin with refCount := sin.refCount - 1 } : K Unit) s = some (.ok (), u) := by
      rw [hu]
      rfl
    refine (Code.bind_ok hdec).trans ?_
    rw [if_pos (by omega)]
    exact (Code.attempt_bind hreclaim).trans rfl
  · rw [ht]
    exact hav.drop hdv
  · have hm : s.Moves v (Function.update u.inode i (some (v.sin i))) := by
      have h1 : s.Moves u (Function.update s.inode i (some (u.sin i))) := by
        rw [husin, hu]
        exact .setSin hc
      have h2 : u.Moves v (Function.update u.inode i (some (v.sin i))) := by
        rw [hvsin, hv]
        exact .setSin hcu
      exact h1.trans h2
    refine ⟨?_, ?_, ?_, ?_, ?_, ?_⟩
    · rw [ht]
      exact hm.blocks
    · rw [ht]
      exact hm.freemap
    · rw [ht]
      exact hm.unused
    · rw [ht]
      exact hm.superDirty
    · rw [ht]
      exact hm.disk
    · funext j
      by_cases hj : j = i
      · subst hj
        rw [Function.update_self, ht]
        simp [Sfs.inode]
      · rw [Function.update_of_ne hj, ht]
        have hsj : v.sin j = s.sin j := by
          rw [hv, Sfs.sin_setSin, if_neg hj, hu, Sfs.sin_setSin, if_neg hj]
        have hcj : v.cached j = s.cached j := by
          rw [hv, hu]
          rfl
        simp [Sfs.inode, hj, hsj, hcj]

/-- **A reference that was taken is given back.** -/
theorem vopRefDec_incr (dev : Device) (h : Acct I E t) (hin : t.inode i = some (s.incr i))
    (hpos : ∀ sin, s.inode i = some sin → 0 < sin.refCount) :
    ∃ u, vopRefDec dev i t = some (.ok (), u) ∧ Acct I E u ∧
      t.Moves u (Function.update t.inode i (s.inode i)) := by
  cases hs : s.inode i with
  | none =>
    have hincr : s.incr i = ⟨.ofBytes (s.disk i), false, 1, 1⟩ := by rw [Sfs.incr, hs]
    rw [hincr] at hin
    exact vopRefDec_last dev h hin rfl rfl rfl
  | some sin =>
    have hp := hpos sin hs
    have hincr : s.incr i = { sin with refCount := sin.refCount + 1 } := by rw [Sfs.incr, hs]
    rw [hincr] at hin
    have hdec := vopRefDec_more dev h hin (show 1 < sin.refCount + 1 by omega)
    simpa only [Int.add_sub_cancel] using hdec

/-! ## A node that is held -/

theorem refCount_incr (h : ∀ sin, s.inode n = some sin → 0 < sin.refCount) :
    0 < (s.incr n).refCount := by
  rw [Sfs.incr]
  cases hs : s.inode n with
  | none => exact one_pos
  | some sin => exact (h sin hs).trans (Int.lt_succ _)

/-- Node `n` has one reference more than in `s`. -/
structure Held (I : Finset ℕ) (E : Set ℕ) (s : Sfs) (n : ℕ) (t : Sfs) : Prop where
  acct : Acct I E t
  moves : s.Moves t (Function.update s.inode n (some (s.incr n)))

theorem Gained.held (h : Gained I E s n t)
    (hpos : ∀ sin, s.inode n = some sin → 0 < sin.refCount) : Held I E s n t :=
  ⟨h.acct, taken_eq_incr hpos ▸ h.moves⟩

namespace Held

theorem wait (h : Held I E s n t) (k : ℕ) : Held I E s n (t.wait k) :=
  ⟨h.acct.wait k, h.moves.wait k⟩

theorem inode_self (h : Held I E s n t) : t.inode n = some (s.incr n) := by
  rw [h.moves.inode, Function.update_self]

theorem inode_ne (h : Held I E s n t) (hi : i ≠ n) : t.inode i = s.inode i := by
  rw [h.moves.inode, Function.update_of_ne hi]

theorem cached (h : Held I E s n t) : t.cached n = true := (inode_eq_some.1 h.inode_self).1

theorem dinOf (h : Held I E s n t) (i : ℕ) : t.dinOf i = s.dinOf i := by
  by_cases hi : i = n
  · subst hi
    rw [dinOf_inode, h.inode_self]
    exact din_incr
  · rw [dinOf_inode, dinOf_inode, h.inode_ne hi, h.moves.disk]

theorem entry (h : Held I E s n t) (i k : ℕ) : t.entry i k = s.entry i k := by
  rw [Sfs.entry, Sfs.entry, Sfs.bmap, Sfs.bmap, h.dinOf, h.moves.disk]

theorem bmap (h : Held I E s n t) (i k : ℕ) : t.bmap i k = s.bmap i k := by
  rw [Sfs.bmap, Sfs.bmap, h.dinOf, h.moves.disk]

theorem slotOf (h : Held I E s n t) (i : ℕ) (name : List UInt8) :
    t.slotOf i name = s.slotOf i name := by
  rw [Sfs.slotOf, Sfs.slotOf, h.dinOf]
  simp only [h.entry]

theorem directory (h : Held I E s n t) (ht : (s.dinOf n).type = sfsTypeDir)
    (hcap : (s.dinOf n).blocks ≤ 1036) (hw : ∀ k < (s.dinOf n).blocks, s.bmap n k ≠ 0) :
    Directory t n := by
  have hdin : t.din n = s.dinOf n := (Acct.dinOf_of_cached h.cached).symm.trans (h.dinOf n)
  refine ⟨h.cached, ?_, ?_, ?_⟩
  · rw [hdin]
    exact ht
  · rw [hdin]
    exact hcap
  · intro k _ hk
    rw [hdin] at hk
    rw [h.bmap]
    exact hw k hk

/-- The node is dropped. -/
theorem drop (dev : Device) (h : Held I E s n t)
    (hpos : ∀ sin, s.inode n = some sin → 0 < sin.refCount) :
    ∃ u, vopRefDec dev n t = some (.ok (), u) ∧ Acct I E u ∧ s.Moves u s.inode := by
  obtain ⟨u, hu, ha, hm⟩ : ∃ u, vopRefDec dev n t = some (.ok (), u) ∧ _ :=
    vopRefDec_incr dev h.acct h.inode_self hpos
  refine ⟨u, hu, ha, ?_⟩
  have hback : Function.update t.inode n (s.inode n) = s.inode := by
    rw [h.moves.inode, Function.update_idem, Function.update_eq_self]
  rw [hback] at hm
  exact h.moves.trans hm

/-- The node is dropped for another one, or for itself. -/
theorem next (dev : Device) (h : Held I E s n t)
    (hpos : ∀ sin, s.inode n = some sin → 0 < sin.refCount) (hg : Gained I E t i u) :
    ∃ v, vopRefDec dev n u = some (.ok (), v) ∧ Gained I E s i v := by
  have hm := hg.moves
  by_cases hi : i = n
  · subst hi
    have hpos' : ∀ sin, t.inode i = some sin → 0 < sin.refCount := fun sin hsin => by
      cases h.inode_self.symm.trans hsin
      exact refCount_incr hpos
    rw [taken_eq_incr hpos'] at hm
    have hin : u.inode i = some (t.incr i) := by rw [hm.inode, Function.update_self]
    obtain ⟨v, hv, ha', hm'⟩ : ∃ v, vopRefDec dev i u = some (.ok (), v) ∧ _ :=
      vopRefDec_incr dev hg.acct hin hpos'
    have hback : Function.update u.inode i (t.inode i) =
        Function.update s.inode i (some (s.taken i)) := by
      rw [hm.inode, Function.update_idem, Function.update_eq_self, h.moves.inode,
        taken_eq_incr hpos]
    rw [hback] at hm'
    exact ⟨v, hv, ha', (h.moves.trans hm).trans hm'⟩
  · have hin : u.inode n = some (s.incr n) := by
      rw [hm.inode, Function.update_of_ne (Ne.symm hi), h.inode_self]
    obtain ⟨v, hv, ha', hm'⟩ : ∃ v, vopRefDec dev n u = some (.ok (), v) ∧ _ :=
      vopRefDec_incr dev hg.acct hin hpos
    have htaken : t.taken i = s.taken i := by
      rw [Sfs.taken, Sfs.taken, h.inode_ne hi, h.moves.disk]
    have hback : Function.update u.inode n (s.inode n) =
        Function.update s.inode i (some (s.taken i)) := by
      rw [hm.inode, h.moves.inode, htaken, Function.update_comm hi, Function.update_idem,
        Function.update_eq_self]
    rw [hback] at hm'
    exact ⟨v, hv, ha', (h.moves.trans hm).trans hm'⟩

end Held

end Ucore
