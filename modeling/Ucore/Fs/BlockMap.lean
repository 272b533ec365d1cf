/-
  The block map of a file: what `sfs_bmap_get_nolock`, `sfs_bmap_load_nolock` and
  `sfs_bmap_truncate_nolock` do to the accounts and to the files.

  * `Sfs.Same`: no inode and no block in use has changed; `Failed`: so it is, and the accounts are
    right but for blocks that could not be cleared;
  * `Mapped`: entry `k` of the map of `i` is block `b`, the rest of the maps is as it was;
  * `bmapLoad_spec`, `bmapTruncate_spec`: what they do if they return;
  * `Sfs.cost`, `Sfs.need`: the free blocks that an entry, or a range of them, takes.
-/
import Ucore.Fs.Accounting
import Mathlib.Order.Interval.Finset.Nat

namespace Ucore

/-- The inodes and the blocks in use are as before. -/
structure Sfs.Same (s t : Sfs) : Prop where
  blocks : t.blocks = s.blocks
  sin : t.sin = s.sin
  cached : t.cached = s.cached
  used : ∀ b, s.Used b → t.Used b
  disk : ∀ b, s.Used b → t.disk b = s.disk b

/-- Every write of `sfs_clear_block` succeeds. -/
def Device.Clears (dev : Device) : Prop := ∀ n, dev.fault n .clear = none

/-- A call has failed: no file has changed, and the accounts are right, except that blocks that
    could not be cleared may be lost. -/
structure Failed (dev : Device) (I : Finset ℕ) (E : Set ℕ) (s t : Sfs) : Prop where
  same : s.Same t
  acct : ∃ E', E ⊆ E' ∧ (dev.Clears → E' = E) ∧ Acct I E' t

/-- Entry `k` of the block map of inode `i` is block `b`; it is a new block if there was none. -/
structure Mapped (I : Finset ℕ) (s t : Sfs) (i k b : ℕ) : Prop where
  blocks : t.blocks = s.blocks
  cached : t.cached = s.cached
  sin : ∀ j, j ≠ i → t.sin j = s.sin j
  size : (t.din i).size = (s.din i).size
  type : (t.din i).type = (s.din i).type
  bmap : ∀ j ∈ I, ∀ k' < 1036, t.bmap j k' = if j = i ∧ k' = k then b else s.bmap j k'
  used : ∀ c, s.Used c → t.Used c
  disk : ∀ c, s.Used c → (∀ j ∈ I, (s.dinOf j).indirect ≠ c) → t.disk c = s.disk c
  indirect : (s.din i).indirect ≠ 0 ∨ k < 12 → (t.din i).indirect = (s.din i).indirect
  old : s.bmap i k ≠ 0 → b = s.bmap i k
  new : s.bmap i k = 0 → ¬s.Used b
  in_use : t.Used b

/-- The number of blocks that mapping entry `k` of `i` takes. -/
def Sfs.cost (s : Sfs) (i k : ℕ) : ℕ :=
  if s.bmap i k ≠ 0 then 0 else if k < 12 then 1 else if (s.dinOf i).indirect = 0 then 2 else 1

section
variable {dev : Device} {I : Finset ℕ} {E : Set ℕ} {s t u : Sfs} {i j k k' b n : ℕ}

namespace Sfs.Same

theorem refl (s : Sfs) : s.Same s := ⟨rfl, rfl, rfl, fun _ h => h, fun _ _ => rfl⟩

theorem trans (h : s.Same t) (h' : t.Same u) : s.Same u where
  blocks := h'.blocks.trans h.blocks
  sin := h'.sin.trans h.sin
  cached := h'.cached.trans h.cached
  used b hb := h'.used b (h.used b hb)
  disk b hb := (h'.disk b (h.used b hb)).trans (h.disk b hb)

theorem wait (h : s.Same t) (n : ℕ) : s.Same (t.wait n) :=
  ⟨h.blocks, h.sin, h.cached, h.used, h.disk⟩

theorem take (h : s.Same t) (hb : t.Free b) : s.Same (t.take b) :=
  ⟨h.blocks, h.sin, h.cached, fun c hc => (used_take_iff hb).2 (.inr (h.used c hc)), h.disk⟩

theorem give (h : s.Same t) (hb : t.Used b) (hn : ¬s.Used b) : s.Same (t.give b) :=
  ⟨h.blocks, h.sin, h.cached,
    fun c hc => (used_give_iff hb).2 ⟨h.used c hc, fun e => hn (e ▸ hc)⟩, h.disk⟩

theorem setBlock (h : s.Same t) (m : Bytes) (hn : ¬s.Used b) : s.Same (t.setBlock b m) :=
  ⟨h.blocks, h.sin, h.cached, h.used, fun c hc => by
    rw [disk_setBlock, if_neg fun e : c = b => hn (e ▸ hc)]
    exact h.disk c hc⟩

theorem din (h : s.Same t) : t.din i = s.din i := congrArg SfsInode.din (congrFun h.sin i)

theorem dinOf (h : s.Same t) (ha : Acct I E s) (hi : i ∈ I) : t.dinOf i = s.dinOf i := by
  rw [Sfs.dinOf, Sfs.dinOf, h.din, h.cached, h.disk i (ha.inode_used hi)]

theorem bmap (h : s.Same t) (ha : Acct I E s) (hi : i ∈ I) : t.bmap i k = s.bmap i k := by
  rw [Sfs.bmap, h.dinOf ha hi]
  exact DiskInode.entry_congr rfl rfl fun h0 => h.disk _ (ha.indirect_used hi h0)

end Sfs.Same

theorem Failed.refl (h : Acct I E s) : Failed dev I E s s :=
  ⟨.refl s, E, subset_rfl, fun _ => rfl, h⟩

theorem Failed.wait (h : Failed dev I E s t) (n : ℕ) : Failed dev I E s (t.wait n) := by
  obtain ⟨hs, E', h1, h2, h3⟩ := h
  exact ⟨hs.wait n, E', h1, h2, h3.wait n⟩

namespace Mapped

theorem din_of_ne (h : Mapped I s t i k b) (hj : j ≠ i) : t.din j = s.din j :=
  congrArg SfsInode.din (h.sin j hj)

theorem dinOf (h : Mapped I s t i k b) (ha : Acct I E s) (hj : j ∈ I) (hji : j ≠ i) :
    t.dinOf j = s.dinOf j := by
  rw [Sfs.dinOf, Sfs.dinOf, h.din_of_ne hji, h.cached,
    h.disk j (ha.inode_used hj) fun l hl => ha.indirect_ne_inode hl hj]

/-- The contents of the blocks are as before. -/
theorem disk_data (h : Mapped I s t i k b) (ha : Acct I E s) (hj : j ∈ I) (hk : k' < 1036)
    (h0 : s.bmap j k' ≠ 0) : t.disk (s.bmap j k') = s.disk (s.bmap j k') :=
  h.disk _ (ha.data_used hj hk h0) fun _ hl => ha.data_ne_indirect hj hk hl h0

theorem ne_zero (h : Mapped I s t i k b) : b ≠ 0 := h.in_use.1

/-- The entry was there. -/
theorem of_old (h : s.Same t) (ha : Acct I E s) (hi : i ∈ I) (hk : k < 1036)
    (h0 : s.bmap i k ≠ 0) : Mapped I s t i k (s.bmap i k) where
  blocks := h.blocks
  cached := h.cached
  sin j _ := congrFun h.sin j
  size := by rw [h.din]
  type := by rw [h.din]
  bmap j hj k' hk' := by
    rw [h.bmap ha hj]
    split
    · rename_i e
      rw [e.1, e.2]
    · rfl
  used := h.used
  disk c hc _ := h.disk c hc
  indirect _ := by rw [h.din]
  old _ := rfl
  new h' := absurd h' h0
  in_use := h.used _ (ha.data_used hi hk h0)

end Mapped

/-! ## Allocation -/

theorem blockAlloc_spec (h : Acct I E s) {r : Except Errno ℕ}
    (hr : blockAlloc dev s = some (r, t)) :
    (∃ b, r = .ok b ∧ s.Free b ∧ s.Same t ∧ Acct I (insert b E) t ∧
      t.unusedBlocks + 1 = s.unusedBlocks ∧ ∀ k < 1024, (t.disk b).word 4 (k * 4) = 0) ∨
      ∃ e, r = .error e ∧ Failed dev I E s t ∧ (dev.Faulty ∨ s.unusedBlocks = 0) := by
  obtain ⟨b, rfl, hb, rfl⟩ | ⟨b, e, rfl, hb, hf, rfl⟩ | ⟨rfl, rfl, hn⟩ :=
    blockAlloc_eq_some h.geo hr
  · have hu := Sfs.Geometry.not_used_of_free hb
    have hpos : 0 < s.unusedBlocks := by
      rw [h.count]
      exact Finset.card_pos.2 ⟨b, by simp [Bitmap.freeBits, hb.2.2.1, hb.2.2.2]⟩
    refine .inl ⟨b, rfl, hb, (((Sfs.Same.refl s).take hb).wait 1).setBlock _ hu,
      ((h.take hb).wait 1).setBlock_lent _ (Set.mem_insert b E), ?_, fun k hk => ?_⟩
    · change s.unusedBlocks - 1 + 1 = s.unusedBlocks
      omega
    · rw [Sfs.disk_setBlock, if_pos rfl, Bytes.word_copy (by omega) (by omega), Bytes.word_zero]
  · refine .inr ⟨e, rfl, ⟨((Sfs.Same.refl s).take hb).wait 1, insert b E, Set.subset_insert b E,
      fun hd => ?_, (h.take hb).wait 1⟩, .inl ⟨s.time, .clear, by rw [hf]; simp⟩⟩
    rw [hd] at hf
    cases hf
  · refine .inr ⟨_, rfl, .refl h, .inr ?_⟩
    rw [h.count, hn, Finset.card_empty]

theorem insert_sdiff (h : Acct I E s) (hb : s.Free b) : insert b E \ {b} = E :=
  Set.insert_sdiff_self_of_notMem (h.not_lent_of_free hb)

theorem sdiff_insert_insert (h : Acct I E s) {ent : ℕ} (he : s.Free ent)
    (hb : b ∉ insert ent E) : (insert b (insert ent E) \ {ent}) \ {b} = E := by
  have := h.not_lent_of_free he
  ext c
  simp only [Set.mem_insert_iff, not_or] at hb
  simp only [Set.mem_sdiff, Set.mem_insert_iff, Set.mem_singleton_iff]
  grind

/-- `failed_cleanup`, from a state where the entry block is not a new one. -/
theorem failedCleanup_old {ent : ℕ} {e : Errno} {r : Except Errno (ℕ × ℕ)}
    (hr : failedCleanup ent ent e s = some (r, t)) : r = .error e ∧ t = s := by
  rw [failedCleanup, if_neg (not_not.2 rfl)] at hr
  exact Code.throw_eq_some.1 hr

theorem failedCleanup_new (hg : s.blocks ≤ s.freemap.nbits) {ent : ℕ} (he : ent ≠ 0) {e : Errno}
    {r : Except Errno (ℕ × ℕ)} (hr : failedCleanup 0 ent e s = some (r, t)) :
    r = .error e ∧ s.Used ent ∧ t = s.give ent := by
  rw [failedCleanup, if_pos he] at hr
  obtain ⟨a, v, h1, h2⟩ | ⟨e', h1, -⟩ := Code.bind_eq_some.1 hr
  · obtain ⟨hu, -, rfl⟩ := (blockFree_iff hg).1 h1
    obtain ⟨rfl, rfl⟩ := Code.throw_eq_some.1 h2
    exact ⟨rfl, hu, rfl⟩
  · cases ((blockFree_iff hg).1 h1).2.1

/-- The allocation of the block and the write of its entry: both are done, or the caller is at
    `failed_cleanup` with nothing done. -/
theorem bmapAddEntry_spec (h : Acct I E s) {entp ent : ℕ} {r : Except Errno (ℕ × ℕ)}
    (hr : bmapAddEntry dev entp ent k s = some (r, t)) :
    (∃ b v, r = .ok (ent, b) ∧ s.Free b ∧ s.Same v ∧ Acct I (insert b E) v ∧
      v.unusedBlocks + 1 = s.unusedBlocks ∧
      t = (v.wait 2).setBlock ent ((v.disk ent).copy (k * 4) (.ofWord b) 4)) ∨
      ∃ e v, Failed dev I E s v ∧ (dev.Faulty ∨ s.unusedBlocks = 0) ∧
        failedCleanup entp ent e v = some (r, t) := by
  rw [bmapAddEntry, Code.attempt_bind_eq_some] at hr
  obtain ⟨r₁, v, h₁, hr⟩ := hr
  obtain ⟨b, rfl, hb, hs, ha, hc, -⟩ | ⟨e, rfl, hf, hc⟩ := blockAlloc_spec h h₁
  · rw [Code.attempt_bind_eq_some] at hr
    obtain ⟨r₂, w, h₂, hr⟩ := hr
    obtain ⟨rfl, rfl⟩ | ⟨e, n, rfl, hf, rfl⟩ := wbuf_eq_some h₂
    · obtain ⟨rfl, rfl⟩ := Code.pure_eq_some.1 hr
      exact .inl ⟨b, v, rfl, hb, hs, ha, hc, rfl⟩
    · have hn := Sfs.Geometry.not_used_of_free hb
      have hw := ha.wait n
      have hu : (v.wait n).Used b := hw.lent_used (Set.mem_insert b E)
      obtain ⟨a, x, h₃, hr⟩ | ⟨e', h₃, -⟩ := Code.bind_eq_some.1 hr
      · obtain ⟨-, -, rfl⟩ := (blockFree_iff hw.geo.bits).1 h₃
        refine .inr ⟨e, _, ⟨(hs.wait n).give hu hn, E, subset_rfl, fun _ => rfl, ?_⟩, .inl hf, hr⟩
        have := hw.give (Set.mem_insert b E)
        rwa [insert_sdiff h hb] at this
      · cases ((blockFree_iff hw.geo.bits).1 h₃).2.1
  · exact .inr ⟨e, v, hf, hc, hr⟩

/-! ## `sfs_bmap_get_nolock` -/

theorem bmapGetOut_iff (hg : s.blocks ≤ s.freemap.nbits) {r : Except Errno ℕ} :
    bmapGetOut b s = some (r, t) ↔ (b = 0 ∨ s.Used b) ∧ r = .ok b ∧ t = s := by
  unfold bmapGetOut
  split
  · rename_i h0
    simp [h0]
  · rename_i h0
    rw [assertInuse_bind_iff hg, Code.pure_eq_some]
    simp [h0]

theorem bmap_direct (hc : s.cached i = true) (hk : k < 12) :
    s.bmap i k = (s.din i).direct ⟨k, hk⟩ := by
  rw [Sfs.bmap, Acct.dinOf_of_cached hc, DiskInode.entry, dif_pos hk]

theorem bmap_of_no_indirect (hc : s.cached i = true) (hk : ¬k < 12) (h0 : (s.din i).indirect = 0) :
    s.bmap i k = 0 := by
  rw [Sfs.bmap, Acct.dinOf_of_cached hc, DiskInode.entry, dif_neg hk, if_pos h0]

theorem bmap_indirect (hc : s.cached i = true) (hk : ¬k < 12) (h0 : (s.din i).indirect ≠ 0) :
    s.bmap i k = (s.disk (s.din i).indirect).word 4 ((k - 12) * 4) := by
  rw [Sfs.bmap, Acct.dinOf_of_cached hc, DiskInode.entry, dif_neg hk, if_neg h0]

/-- An entry that is there, or is not to be made, is read. -/
theorem bmapGet_old (h : Acct I E s) (hc : s.cached i = true) (hk : k < 1036) {create : Bool}
    (ho : create = false ∨ s.bmap i k ≠ 0) {r : Except Errno ℕ}
    (hr : bmapGet dev i k create s = some (r, t)) :
    ∃ n, t = s.wait n ∧ (r = .ok (s.bmap i k) ∨ ∃ e, r = .error e ∧ dev.Faulty) := by
  unfold bmapGet at hr
  by_cases hd : k < 12
  · rw [dif_pos hd, bmapGetDirect, Code.get_bind_eq_some] at hr
    rw [bmap_direct hc hd] at ho ⊢
    rw [if_neg fun e => ho.elim (fun hf => by rw [hf] at e; cases e.2) fun hn => hn e.1] at hr
    obtain ⟨-, rfl, rfl⟩ := (bmapGetOut_iff h.geo.bits).1 hr
    exact ⟨0, rfl, .inl rfl⟩
  · rw [dif_neg hd, if_pos (by omega), bmapGetIndirect, Code.get_bind_eq_some] at hr
    by_cases h0 : (s.din i).indirect = 0
    · -- no indirect block
      have hcr : create = false := ho.resolve_right fun hn => hn (bmap_of_no_indirect hc hd h0)
      rw [h0, bmapGetSub, if_neg (not_not.2 rfl), if_pos hcr, bind_assoc,
        Code.assert_bind_eq_some, pure_bind] at hr
      obtain ⟨-, hr⟩ := hr
      dsimp only at hr
      rw [if_neg (not_not.2 rfl)] at hr
      obtain ⟨-, rfl, rfl⟩ := (bmapGetOut_iff h.geo.bits).1 hr
      rw [bmap_of_no_indirect hc hd h0]
      exact ⟨0, rfl, .inl rfl⟩
    · rw [bmapGetSub, if_pos h0, bind_assoc, Code.assert_bind_eq_some, bind_assoc] at hr
      obtain ⟨-, hr⟩ := hr
      rw [bmap_indirect hc hd h0] at ho ⊢
      obtain ⟨m, v, h₁, hr⟩ | ⟨e, h₁, rfl⟩ := Code.bind_eq_some.1 hr
      · obtain ⟨rfl, hm | ⟨e, he, -⟩⟩ := rbuf_eq_some h₁
        · cases hm
          rw [Bytes.word_from', if_pos (ho.symm), pure_bind] at hr
          dsimp only at hr
          rw [if_neg (not_not.2 rfl)] at hr
          obtain ⟨-, rfl, rfl⟩ := (bmapGetOut_iff (h.wait 1).geo.bits).1 hr
          exact ⟨1, rfl, .inl rfl⟩
        · cases he
      · obtain ⟨rfl, hm | ⟨e', -, hf⟩⟩ := rbuf_eq_some h₁
        · cases hm
        · exact ⟨1, rfl, .inr ⟨e, rfl, hf⟩⟩

/-- What a successful allocation of entry `k` of `i` has done. -/
structure Grown (I : Finset ℕ) (E : Set ℕ) (s t : Sfs) (i k b : ℕ) : Prop where
  mapped : Mapped I s t i k b
  acct : Acct I E t
  count : t.unusedBlocks + s.cost i k = s.unusedBlocks
  blocks : (t.din i).blocks = (s.din i).blocks

/-- A direct slot is filled. -/
theorem bmapGetDirect_new (h : Acct I E s) (hc : s.cached i = true) (hk : k < 12)
    (h0 : s.bmap i k = 0) {r : Except Errno ℕ}
    (hr : bmapGetDirect dev i ⟨k, hk⟩ true s = some (r, t)) :
    (∃ b, r = .ok b ∧ Grown I E s t i k b) ∨
      ∃ e, r = .error e ∧ Failed dev I E s t ∧ (dev.Faulty ∨ s.unusedBlocks < s.cost i k) := by
  have hi := h.cached i hc
  have hcost : s.cost i k = 1 := by simp [Sfs.cost, h0, hk]
  rw [bmapGetDirect, Code.get_bind_eq_some, if_pos ⟨bmap_direct hc hk ▸ h0, rfl⟩] at hr
  obtain ⟨b, v, h₁, hr⟩ | ⟨e, h₁, rfl⟩ := Code.bind_eq_some.1 hr
  · obtain ⟨b', hb', hb, hs, ha, hcnt, -⟩ | ⟨e, he, -⟩ := blockAlloc_spec h h₁
    · cases hb'
      rw [Code.modify_bind_eq_some] at hr
      have hcv : v.cached i = true := by rw [hs.cached, hc]
      have hz : (v.din i).direct ⟨k, hk⟩ = 0 := by rw [hs.din, ← bmap_direct hc hk, h0]
      have ha' := ha.setDirect hcv hz (Set.mem_insert b E)
      rw [insert_sdiff h hb] at ha'
      obtain ⟨hbu, rfl, rfl⟩ := (bmapGetOut_iff ha'.geo.bits).1 hr
      have hbu' : v.Used b := ha.lent_used (Set.mem_insert b E)
      refine .inl ⟨b, rfl, ?_, ha', by rw [hcost]; exact hcnt, ?_⟩
      · exact
          { blocks := hs.blocks
            cached := hs.cached
            sin := fun j hj => by
              rw [Sfs.setDin, Sfs.sin_setSin, if_neg hj, hs.sin]
            size := by rw [Sfs.din_setDin, if_pos rfl, hs.din]
            type := by rw [Sfs.din_setDin, if_pos rfl, hs.din]
            bmap := fun j hj k' _ => by
              rw [Acct.bmap_setDin_direct hcv, hs.bmap h hj]
            used := hs.used
            disk := fun c hcu _ => hs.disk c hcu
            indirect := fun _ => by rw [Sfs.din_setDin, if_pos rfl, hs.din]
            old := fun h' => absurd h0 h'
            new := fun _ => Sfs.Geometry.not_used_of_free hb
            in_use := hbu' }
      · rw [Sfs.din_setDin, if_pos rfl, hs.din]
    · cases he
  · obtain ⟨b', hb', -⟩ | ⟨e', -, hf, hcnt⟩ := blockAlloc_spec h h₁
    · cases hb'
    · refine .inr ⟨e, rfl, hf, hcnt.imp_right fun hz => ?_⟩
      rw [hcost, hz]
      exact Nat.one_pos

/-- An entry of the indirect block is filled. -/
theorem bmapGetIndirect_entry (h : Acct I E s) (hc : s.cached i = true) (hk : ¬k < 12)
    (hk' : k < 1036) (hn : (s.din i).indirect ≠ 0) (h0 : s.bmap i k = 0) {r : Except Errno ℕ}
    (hr : bmapGetIndirect dev i (k - 12) true s = some (r, t)) :
    (∃ b, r = .ok b ∧ Grown I E s t i k b) ∨
      ∃ e, r = .error e ∧ Failed dev I E s t ∧ (dev.Faulty ∨ s.unusedBlocks < s.cost i k) := by
  have hi := h.cached i hc
  have hdi := Acct.dinOf_of_cached hc
  have hcost : s.cost i k = 1 := by simp [Sfs.cost, h0, hk, hdi, hn]
  have hk2 : k - 12 + 12 = k := by omega
  rw [bmapGetIndirect, Code.get_bind_eq_some, bmapGetSub, if_pos hn, bind_assoc,
    Code.assert_bind_eq_some, bind_assoc] at hr
  obtain ⟨-, hr⟩ := hr
  obtain ⟨m, v, h₁, hr⟩ | ⟨e, h₁, rfl⟩ := Code.bind_eq_some.1 hr
  · obtain ⟨rfl, hm | ⟨e, he, -⟩⟩ := rbuf_eq_some h₁
    · cases hm
      rw [Bytes.word_from', ← bmap_indirect hc hk hn, if_neg (by simp [h0])] at hr
      have hw := h.wait 1
      obtain ⟨p, w, h₂, hr⟩ | ⟨e, h₂, rfl⟩ := Code.bind_eq_some.1 hr
      · obtain ⟨b, x, hp, hb, hs, ha, hcnt, rfl⟩ | ⟨e, x, -, -, hx⟩ := bmapAddEntry_spec hw h₂
        · cases hp
          dsimp only at hr
          rw [if_neg (not_not.2 rfl)] at hr
          replace hs : s.Same x := ((Sfs.Same.refl s).wait 1).trans hs
          have hs2 : s.Same (x.wait 2) := hs.wait 2
          have ha2 := ha.wait 2
          have hdx : ((x.wait 2).dinOf i).indirect = (s.din i).indirect := by
            rw [hs2.dinOf h hi, hdi]
          have hxn : ((x.wait 2).dinOf i).indirect ≠ 0 := by rw [hdx]; exact hn
          have hxz : (x.wait 2).bmap i (k - 12 + 12) = 0 := by rw [hk2, hs2.bmap h hi, h0]
          have hset := ha2.setEntry hi hxn (k := k - 12) (by omega) hxz (Set.mem_insert b E)
          have hbm := fun j (hj : j ∈ I) k' (hk' : k' < 1036) =>
            ha2.bmap_setEntry (.ofWord b) hi hxn (k := k - 12) (by omega) hj hk'
          rw [hdx, insert_sdiff h hb] at hset
          rw [hdx] at hbm
          obtain ⟨hbu, rfl, rfl⟩ := (bmapGetOut_iff hset.geo.bits).1 hr
          have hbx : x.Used b := ha.lent_used (Set.mem_insert b E)
          refine .inl ⟨b, rfl, ?_, hset, by rw [hcost]; exact hcnt, by rw [← hs.din]; rfl⟩
          exact
            { blocks := hs.blocks
              cached := hs.cached
              sin := fun j _ => congrFun hs.sin j
              size := by rw [← hs.din]; rfl
              type := by rw [← hs.din]; rfl
              bmap := fun j hj k' hk' => by
                refine (hbm j hj k' hk').trans ?_
                rw [hk2, hs2.bmap h hj, ha.word_ofWord hbx]
              used := hs.used
              disk := fun c hcu hne => by
                rw [Sfs.disk_setBlock, if_neg fun e => hne i hi (by rw [hdi, e])]
                exact hs.disk c hcu
              indirect := fun _ => by rw [← hs.din]; rfl
              old := fun h' => absurd h0 h'
              new := fun _ => Sfs.Geometry.not_used_of_free hb
              in_use := hbx }
        · cases (failedCleanup_old hx).1
      · obtain ⟨b, x, hp, -⟩ | ⟨e', x, hf, hcnt, hx⟩ := bmapAddEntry_spec hw h₂
        · cases hp
        · obtain ⟨-, rfl⟩ := failedCleanup_old hx
          refine .inr ⟨e, rfl, ⟨((Sfs.Same.refl s).wait 1).trans hf.same, hf.acct⟩,
            hcnt.imp_right fun hz => ?_⟩
          rw [hcost]
          change s.unusedBlocks = 0 at hz
          omega
    · cases he
  · obtain ⟨rfl, hm | ⟨e', -, hf⟩⟩ := rbuf_eq_some h₁
    · cases hm
    · exact .inr ⟨e, rfl, (Failed.refl h).wait 1, .inl hf⟩

/-- The file gets an indirect block with one entry. -/
theorem bmapGetIndirect_block (h : Acct I E s) (hc : s.cached i = true) (hk : ¬k < 12)
    (hk' : k < 1036) (hn : (s.din i).indirect = 0) {r : Except Errno ℕ}
    (hr : bmapGetIndirect dev i (k - 12) true s = some (r, t)) :
    (∃ b, r = .ok b ∧ Grown I E s t i k b) ∨
      ∃ e, r = .error e ∧ Failed dev I E s t ∧ (dev.Faulty ∨ s.unusedBlocks < s.cost i k) := by
  have hi := h.cached i hc
  have hdi := Acct.dinOf_of_cached hc
  have h0 : s.bmap i k = 0 := bmap_of_no_indirect hc hk hn
  have hcost : s.cost i k = 2 := by simp [Sfs.cost, h0, hk, hdi, hn]
  have hk2 : k - 12 + 12 = k := by omega
  rw [bmapGetIndirect, Code.get_bind_eq_some, hn, bmapGetSub, if_neg (not_not.2 rfl),
    if_neg (by simp), bind_assoc, Code.assert_bind_eq_some, bind_assoc] at hr
  obtain ⟨-, hr⟩ := hr
  obtain ⟨ent, v, h₁, hr⟩ | ⟨e, h₁, rfl⟩ := Code.bind_eq_some.1 hr
  · obtain ⟨ent', he, hent, hs, ha, hcnt, hzero⟩ | ⟨e, he, -⟩ := blockAlloc_spec h h₁
    · cases he
      have hev : v.Used ent := ha.lent_used (Set.mem_insert ent E)
      obtain ⟨p, w, h₂, hr⟩ | ⟨e, h₂, rfl⟩ := Code.bind_eq_some.1 hr
      · obtain ⟨b, x, hp, hb, hsx, hax, hcntx, rfl⟩ | ⟨e, x, hf, -, hx⟩ := bmapAddEntry_spec ha h₂
        · cases hp
          have hbe : b ≠ ent := fun e => Sfs.Geometry.not_used_of_free hb (e ▸ hev)
          have hsx' : s.Same x := hs.trans hsx
          have hme : ent ∈ insert b (insert ent E) := .inr (Set.mem_insert ent E)
          have hay := (hax.wait 2).setBlock_lent
            ((x.disk ent).copy ((k - 12) * 4) (.ofWord b) 4) hme
          have hsy := (hsx'.wait 2).setBlock ((x.disk ent).copy ((k - 12) * 4) (.ofWord b) 4)
            (Sfs.Geometry.not_used_of_free hent)
          have hwords : ∀ n < 1024, (((x.wait 2).setBlock ent
              ((x.disk ent).copy ((k - 12) * 4) (.ofWord b) 4)).disk ent).word 4 (n * 4) =
                if n = k - 12 then b else 0 := fun n hn => by
            rw [Sfs.disk_setBlock, if_pos rfl]
            refine (word_entry _ _ hn).trans ?_
            rw [hax.word_ofWord (hax.lent_used (.inl rfl))]
            change (if _ then _ else (x.disk ent).word 4 (n * 4)) = _
            rw [hsx.disk ent hev, hzero n hn]
          have hcy : ((x.wait 2).setBlock ent
              ((x.disk ent).copy ((k - 12) * 4) (.ofWord b) 4)).cached i = true := by
            rw [hsy.cached, hc]
          have hny : (((x.wait 2).setBlock ent
              ((x.disk ent).copy ((k - 12) * 4) (.ofWord b) 4)).din i).indirect = 0 := by
            rw [hsy.din, hn]
          have hcy' : ((x.wait 2).setBlock ent
              ((x.disk ent).copy ((k - 12) * 4) (.ofWord b) 4)).unusedBlocks + 2 =
                s.unusedBlocks := by
            change x.unusedBlocks + 2 = _
            omega
          generalize (x.wait 2).setBlock ent
            ((x.disk ent).copy ((k - 12) * 4) (.ofWord b) 4) = y at *
          dsimp only at hr
          rw [if_pos hent.1, Code.assert_bind_eq_some, Code.modify_bind_eq_some] at hr
          have hset := hay.setIndirect hcy hny hme (.inl rfl) hbe (n := k - 12) (by omega) hwords
          rw [sdiff_insert_insert h hent (ha.not_lent_of_free hb)] at hset
          obtain ⟨hbu, rfl, rfl⟩ := (bmapGetOut_iff hset.geo.bits).1 hr.2
          have hby : y.Used b := hay.lent_used (.inl rfl)
          refine .inl ⟨b, rfl, ?_, hset, by rw [hcost]; exact hcy', ?_⟩
          · exact
              { blocks := hsy.blocks
                cached := hsy.cached
                sin := fun j hj => by rw [Sfs.setDin, Sfs.sin_setSin, if_neg hj, hsy.sin]
                size := by rw [Sfs.din_setDin, if_pos rfl, hsy.din]
                type := by rw [Sfs.din_setDin, if_pos rfl, hsy.din]
                bmap := fun j hj k' hk' => by
                  rw [Acct.bmap_setIndirect hcy hny hent.1 hwords hk', hk2, hsy.bmap h hj]
                used := hsy.used
                disk := fun c hcu _ => hsy.disk c hcu
                indirect := fun h' => absurd h' (by simp [hn, hk])
                old := fun h' => absurd h0 h'
                new := fun _ hu => Sfs.Geometry.not_used_of_free hb (hs.used b hu)
                in_use := hby }
          · rw [Sfs.din_setDin, if_pos rfl, hsy.din]
        · obtain ⟨E', -, -, hax⟩ := hf.acct
          cases (failedCleanup_new hax.geo.bits hent.1 hx).1
      · obtain ⟨b, x, hp, -⟩ | ⟨e', x, hf, hcntx, hx⟩ := bmapAddEntry_spec ha h₂
        · cases hp
        · obtain ⟨E', hE, hE', hax⟩ := hf.acct
          obtain ⟨-, hu, rfl⟩ := failedCleanup_new hax.geo.bits hent.1 hx
          have hn' := Sfs.Geometry.not_used_of_free hent
          refine .inr ⟨e, rfl, ⟨(hs.trans hf.same).give hu hn', E' \ {ent}, fun c hc => ?_,
            fun hd => ?_, hax.give (hE (Set.mem_insert ent E))⟩, hcntx.imp_right fun hz => ?_⟩
          · exact ⟨hE (.inr hc), fun e' => h.not_lent_of_free hent (e' ▸ hc)⟩
          · rw [hE' hd, insert_sdiff h hent]
          · rw [hcost]
            omega
    · cases he
  · obtain ⟨b', hb', -⟩ | ⟨e', -, hf, hcnt⟩ := blockAlloc_spec h h₁
    · cases hb'
    · refine .inr ⟨e, rfl, hf, hcnt.imp_right fun hz => ?_⟩
      rw [hcost, hz]
      exact Nat.two_pos

theorem bmapGet_lt {create : Bool} {r : Except Errno ℕ}
    (hr : bmapGet dev i k create s = some (r, t)) : k < 1036 := by
  unfold bmapGet at hr
  split at hr
  · omega
  · split at hr
    · omega
    · exact absurd hr (by simp)

theorem bmapGet_new (h : Acct I E s) (hc : s.cached i = true) (hk : k < 1036)
    (h0 : s.bmap i k = 0) {r : Except Errno ℕ} (hr : bmapGet dev i k true s = some (r, t)) :
    (∃ b, r = .ok b ∧ Grown I E s t i k b) ∨
      ∃ e, r = .error e ∧ Failed dev I E s t ∧ (dev.Faulty ∨ s.unusedBlocks < s.cost i k) := by
  unfold bmapGet at hr
  by_cases hd : k < 12
  · rw [dif_pos hd] at hr
    exact bmapGetDirect_new h hc hd h0 hr
  · rw [dif_neg hd, if_pos (by omega)] at hr
    by_cases hn : (s.din i).indirect = 0
    · exact bmapGetIndirect_block h hc hd hk hn hr
    · exact bmapGetIndirect_entry h hc hd hk hn h0 hr

/-! ## `sfs_bmap_load_nolock` -/

/-- What a successful `sfs_bmap_load_nolock` has done. -/
structure Loaded (I : Finset ℕ) (E : Set ℕ) (s t : Sfs) (i k b : ℕ) : Prop where
  mapped : Mapped I s t i k b
  acct : Acct I E t
  count : t.unusedBlocks + s.cost i k = s.unusedBlocks
  blocks : (t.din i).blocks = max (s.din i).blocks (k + 1)

theorem bmap_setSin {f : SfsInode → SfsInode} (hc : s.cached i = true)
    (h1 : (f (s.sin i)).din.direct = (s.din i).direct)
    (h2 : (f (s.sin i)).din.indirect = (s.din i).indirect) :
    (s.setSin i f).bmap j k = s.bmap j k := by
  rw [Sfs.bmap, Acct.dinOf_setSin hc]
  by_cases hj : j = i
  · subst hj
    rw [if_pos rfl, Sfs.bmap, Acct.dinOf_of_cached hc]
    exact DiskInode.entry_congr h1 h2 fun _ => rfl
  · rw [if_neg hj]
    rfl

/-- Fields of the inode other than its slots are written. -/
theorem Mapped.setSin (h : Mapped I s t i k b) {f : SfsInode → SfsInode} (hc : t.cached i = true)
    (h1 : (f (t.sin i)).din.direct = (t.din i).direct)
    (h2 : (f (t.sin i)).din.indirect = (t.din i).indirect)
    (h3 : (f (t.sin i)).din.size = (t.din i).size)
    (h4 : (f (t.sin i)).din.type = (t.din i).type) : Mapped I s (t.setSin i f) i k b where
  blocks := h.blocks
  cached := h.cached
  sin j hj := by rw [Sfs.sin_setSin, if_neg hj, h.sin j hj]
  size := by rw [Sfs.din_setSin, if_pos rfl, h3, h.size]
  type := by rw [Sfs.din_setSin, if_pos rfl, h4, h.type]
  bmap j hj k' hk' := by rw [bmap_setSin hc h1 h2, h.bmap j hj k' hk']
  used := h.used
  disk := h.disk
  indirect h' := by rw [Sfs.din_setSin, if_pos rfl, h2, h.indirect h']
  old := h.old
  new := h.new
  in_use := h.in_use

/-- The end of `sfs_bmap_load_nolock`. -/
theorem Grown.load (h : Grown I E s t i k b) (hc : s.cached i = true)
    (hk : k = (s.din i).blocks) :
    Loaded I E s (t.setSin i fun sin =>
      { sin with din := { sin.din with blocks := sin.din.blocks + 1 } }) i k b := by
  have hct : t.cached i = true := by rw [h.mapped.cached, hc]
  refine ⟨h.mapped.setSin hct rfl rfl rfl rfl,
    h.acct.setSin_same hct rfl rfl rfl fun hd => ⟨hd, Nat.le_succ _⟩, h.count, ?_⟩
  rw [Sfs.din_setSin, if_pos rfl]
  change (t.din i).blocks + 1 = _
  rw [h.blocks, hk]
  omega

theorem Grown.of_old (h : Acct I E s) (hc : s.cached i = true) (hk : k < 1036)
    (h0 : s.bmap i k ≠ 0) (n : ℕ) : Grown I E s (s.wait n) i k (s.bmap i k) :=
  ⟨.of_old ((Sfs.Same.refl s).wait n) h (h.cached i hc) hk h0, h.wait n,
    by simp [Sfs.cost, h0]; rfl,
    rfl⟩

/-- **`sfs_bmap_load_nolock`.** -/
theorem bmapLoad_spec (h : Acct I E s) (hc : s.cached i = true) {r : Except Errno ℕ}
    (hr : bmapLoad dev i k s = some (r, t)) :
    k ≤ (s.din i).blocks ∧ k < 1036 ∧ ((∃ b, r = .ok b ∧ Loaded I E s t i k b) ∨
      ∃ e, r = .error e ∧ Failed dev I E s t ∧ (dev.Faulty ∨ s.unusedBlocks < s.cost i k)) := by
  rw [bmapLoad, Code.get_bind_eq_some, Code.assert_bind_eq_some] at hr
  obtain ⟨hle, hr⟩ := hr
  -- what `sfs_bmap_get_nolock` has done, and that it has found a block
  have hget : k < 1036 ∧ ((∃ b v, Grown I E s v i k b ∧
      (assertInuse b >>= fun _ => if k = (s.din i).blocks then do
        Code.modify fun s => s.setSin i fun sin =>
          { sin with din := { sin.din with blocks := sin.din.blocks + 1 } }
        pure b
      else pure b) v = some (r, t)) ∨
      ∃ e, r = .error e ∧ Failed dev I E s t ∧ (dev.Faulty ∨ s.unusedBlocks < s.cost i k)) := by
    by_cases hold : k ≠ (s.din i).blocks ∨ s.bmap i k ≠ 0
    · have ho : decide (k = (s.din i).blocks) = false ∨ s.bmap i k ≠ 0 :=
        hold.imp_left fun hne => decide_eq_false hne
      obtain ⟨b, v, h₁, h₂⟩ | ⟨e, h₁, rfl⟩ := Code.bind_eq_some.1 hr
      · have hlt := bmapGet_lt h₁
        obtain ⟨n, rfl, hb | ⟨e, he, -⟩⟩ := bmapGet_old h hc hlt ho h₁
        · cases hb
          have h0 := ((assertInuse_bind_iff (h.wait n).geo.bits).1 h₂).1
          exact ⟨hlt, .inl ⟨_, _, .of_old h hc hlt h0.1 n, h₂⟩⟩
        · cases he
      · have hlt := bmapGet_lt h₁
        obtain ⟨n, rfl, hb | ⟨e', -, hf⟩⟩ := bmapGet_old h hc hlt ho h₁
        · cases hb
        · exact ⟨hlt, .inr ⟨e, rfl, (Failed.refl h).wait n, .inl hf⟩⟩
    · simp only [not_or, ne_eq, not_not] at hold
      rw [decide_eq_true hold.1] at hr
      obtain ⟨b, v, h₁, h₂⟩ | ⟨e, h₁, rfl⟩ := Code.bind_eq_some.1 hr
      · have hlt := bmapGet_lt h₁
        obtain ⟨b', hb, hg⟩ | ⟨e, he, -⟩ := bmapGet_new h hc hlt hold.2 h₁
        · cases hb
          exact ⟨hlt, .inl ⟨b, v, hg, h₂⟩⟩
        · cases he
      · have hlt := bmapGet_lt h₁
        obtain ⟨b', hb, -⟩ | hf := bmapGet_new h hc hlt hold.2 h₁
        · cases hb
        · exact ⟨hlt, .inr hf⟩
  refine ⟨hle, hget.1, hget.2.imp_left fun ⟨b, v, hg, hr⟩ => ?_⟩
  obtain ⟨-, hr⟩ := (assertInuse_bind_iff hg.acct.geo.bits).1 hr
  split at hr
  · rename_i hk
    rw [Code.modify_bind_eq_some] at hr
    obtain ⟨rfl, rfl⟩ := Code.pure_eq_some.1 hr
    exact ⟨b, rfl, hg.load hc hk⟩
  · rename_i hk
    obtain ⟨rfl, rfl⟩ := Code.pure_eq_some.1 hr
    refine ⟨b, rfl, hg.mapped, hg.acct, hg.count, ?_⟩
    rw [hg.blocks]
    omega

/-- The number of blocks that entries `k` to `n` of the map of `i` need, the indirect block
    included. -/
def Sfs.need (s : Sfs) (i k n : ℕ) : ℕ :=
  ((Finset.Ico k n).filter fun k => s.bmap i k = 0).card +
    if (s.dinOf i).indirect = 0 ∧ k < n ∧ 12 < n then 1 else 0

/-- Mapping an entry takes what it needs. -/
theorem Loaded.need (h : Loaded I E s t i k b) (hc : s.cached i = true) (hi : i ∈ I) (hk : k < n)
    (hn : n ≤ 1036) : s.need i k n = t.need i (k + 1) n + s.cost i k := by
  have hct : t.cached i = true := by rw [h.mapped.cached, hc]
  have hbm : ∀ k', k' < 1036 → k' ≠ k → t.bmap i k' = s.bmap i k' := fun k' hk' hne => by
    rw [h.mapped.bmap i hi k' hk', if_neg fun e => hne e.2]
  have hrest : (Finset.Ico (k + 1) n).filter (fun k => t.bmap i k = 0) =
      (Finset.Ico (k + 1) n).filter fun k => s.bmap i k = 0 :=
    Finset.filter_congr fun k' hk' => by
      rw [Finset.mem_Ico] at hk'
      rw [hbm k' (by omega) (by omega)]
  have hico : Finset.Ico k n = insert k (Finset.Ico (k + 1) n) := by
    ext c
    simp only [Finset.mem_insert, Finset.mem_Ico]
    omega
  have hnot : k ∉ (Finset.Ico (k + 1) n).filter fun k => s.bmap i k = 0 := by simp
  rw [Sfs.need, Sfs.need, hrest, hico, Finset.filter_insert, Acct.dinOf_of_cached hc,
    Acct.dinOf_of_cached hct]
  by_cases hind : (s.din i).indirect ≠ 0 ∨ k < 12
  · rw [h.mapped.indirect hind]
    by_cases h0 : s.bmap i k = 0
    · rw [if_pos h0, Finset.card_insert_of_notMem hnot]
      have hcost : s.cost i k = 1 := by
        rw [Sfs.cost, if_neg (not_not.2 h0), Acct.dinOf_of_cached hc]
        rcases hind with hind | hind
        · simp [hind]
        · simp [hind]
      rw [hcost]
      split <;> split <;> omega
    · rw [if_neg h0, Sfs.cost, if_pos h0]
      split <;> split <;> omega
  · simp only [not_or, not_not, ne_eq] at hind
    have h0 : s.bmap i k = 0 := bmap_of_no_indirect hc hind.2 hind.1
    have hint : (t.din i).indirect ≠ 0 := fun e => h.mapped.ne_zero (by
      have := h.mapped.bmap i hi k (by omega)
      rw [if_pos ⟨rfl, rfl⟩, bmap_of_no_indirect hct hind.2 e] at this
      exact this.symm)
    rw [if_pos h0, Finset.card_insert_of_notMem hnot, if_pos ⟨hind.1, hk, by omega⟩,
      if_neg fun e => hint e.1, Sfs.cost, if_neg (not_not.2 h0), if_neg hind.2,
      Acct.dinOf_of_cached hc, if_pos hind.1]

theorem cost_le_need (hk : k < n) : s.cost i k ≤ s.need i k n := by
  have hmem : s.bmap i k = 0 → 0 < ((Finset.Ico k n).filter fun k => s.bmap i k = 0).card :=
    fun h0 => Finset.card_pos.2 ⟨k, by simp [hk, h0]⟩
  rw [Sfs.cost, Sfs.need]
  split
  · exact Nat.zero_le _
  · rename_i h0
    have := hmem (not_not.1 h0)
    split
    · omega
    · split
      · rename_i hk12 hind
        rw [if_pos ⟨hind, hk, by omega⟩]
        omega
      · omega

theorem need_congr_indirect (hd : (t.dinOf i).indirect = (s.dinOf i).indirect)
    (hb : ∀ k', k' < n → t.bmap i k' = s.bmap i k') : t.need i k n = s.need i k n := by
  rw [Sfs.need, Sfs.need, hd]
  congr 2
  refine Finset.filter_congr fun k' hk' => ?_
  rw [hb k' (Finset.mem_Ico.1 hk').2]

theorem need_congr (hd : t.dinOf i = s.dinOf i) (hb : ∀ k', k' < n → t.bmap i k' = s.bmap i k') :
    t.need i k n = s.need i k n := need_congr_indirect (congrArg DiskInode.indirect hd) hb

/-- An entry that is mapped needs nothing. -/
theorem need_le_succ (hc : s.cached i = true) (h0 : s.bmap i k ≠ 0) :
    s.need i k n ≤ s.need i (k + 1) n := by
  have hsub : (Finset.Ico k n).filter (fun k => s.bmap i k = 0) ⊆
      (Finset.Ico (k + 1) n).filter fun k => s.bmap i k = 0 := by
    intro k' hk'
    rw [Finset.mem_filter, Finset.mem_Ico] at hk' ⊢
    have hne : k' ≠ k := fun e => h0 (e ▸ hk'.2)
    exact ⟨by omega, hk'.2⟩
  refine Nat.add_le_add (Finset.card_le_card hsub) ?_
  by_cases hi : (s.dinOf i).indirect = 0 ∧ k < n ∧ 12 < n
  · have hk : k < 12 := by
      by_contra hk
      rw [Acct.dinOf_of_cached hc] at hi
      exact h0 (bmap_of_no_indirect hc hk hi.1)
    rw [if_pos hi, if_pos ⟨hi.1, by omega, hi.2.2⟩]
  · rw [if_neg hi]
    exact Nat.zero_le _

/-- An empty range needs nothing. -/
theorem need_of_le (h : n ≤ k) : s.need i k n = 0 := by
  rw [Sfs.need, Finset.Ico_eq_empty (by omega), if_neg (by omega)]
  rfl

/-! ## `sfs_bmap_truncate_nolock` -/

/-- Entry `k` of the block map of inode `i` is empty, and its block is free. -/
structure Unmapped (I : Finset ℕ) (E : Set ℕ) (s t : Sfs) (i k : ℕ) : Prop where
  acct : Acct I E t
  blocks : t.blocks = s.blocks
  cached : t.cached = s.cached
  sin : ∀ j, j ≠ i → t.sin j = s.sin j
  size : (t.din i).size = (s.din i).size
  type : (t.din i).type = (s.din i).type
  bmap : ∀ j ∈ I, ∀ k' < 1036, t.bmap j k' = if j = i ∧ k' = k then 0 else s.bmap j k'
  used : ∀ c, s.Used c → c ≠ s.bmap i k → t.Used c
  disk : ∀ c, s.Used c → (∀ j ∈ I, (s.dinOf j).indirect ≠ c) → t.disk c = s.disk c

/-- There was no block. -/
theorem Unmapped.of_empty (h : Acct I E s) (h0 : s.bmap i k = 0 ∨ ¬k < 1036) (n : ℕ) :
    Unmapped I E s (s.wait n) i k where
  acct := h.wait n
  blocks := rfl
  cached := rfl
  sin _ _ := rfl
  size := rfl
  type := rfl
  bmap j _ k' hk' := by
    split
    · rename_i e
      obtain ⟨rfl, rfl⟩ := e
      exact h0.resolve_right (not_not.2 hk')
    · rfl
  used _ hc _ := hc
  disk _ _ _ := rfl

theorem Acct.not_lent_data (h : Acct I E s) (hi : i ∈ I) (hk : k < 1036) : s.bmap i k ∉ E :=
  fun hb => h.ledger.lent_free _ hb (.data i k) (slot_data hi hk)

theorem bmapFree_direct (h : Acct I E s) (hc : s.cached i = true) (hk : k < 12)
    (h0 : s.bmap i k ≠ 0) : Unmapped I E s ((s.give (s.bmap i k)).setDin i fun din =>
      { din with direct := Function.update din.direct ⟨k, hk⟩ 0 }) i k := by
  have hi := h.cached i hc
  have hk2 : k < 1036 := by omega
  have ha := (h.clearDirect hc (bmap_direct hc hk).symm h0).give (Set.mem_insert _ E)
  rw [Set.insert_sdiff_self_of_notMem (h.not_lent_data hi hk2)] at ha
  exact
    { acct := ha
      blocks := rfl
      cached := rfl
      sin := fun j hj => by
        rw [Sfs.setDin, Sfs.sin_setSin, if_neg hj]
        rfl
      size := by
        rw [Sfs.din_setDin, if_pos rfl]
        rfl
      type := by
        rw [Sfs.din_setDin, if_pos rfl]
        rfl
      bmap := fun j _ k' _ => by
        rw [Acct.bmap_setDin_direct (s := s.give (s.bmap i k)) hc]
        rfl
      used := fun c hcu hne => (Sfs.used_give_iff (h.data_used hi hk2 h0)).2 ⟨hcu, hne⟩
      disk := fun _ _ _ => rfl }

theorem bmapFreeSub_spec (h : Acct I E s) (hc : s.cached i = true) (hk : ¬k < 12)
    (hk' : k < 1036) (hn : (s.din i).indirect ≠ 0) {r : Except Errno Unit}
    (hr : bmapFreeSub dev (s.din i).indirect (k - 12) s = some (r, t)) :
    (r = .ok () ∧ Unmapped I E s t i k ∧ t.sin = s.sin) ∨
      ∃ e n, r = .error e ∧ dev.Faulty ∧ t = s.wait n := by
  have hi := h.cached i hc
  have hdi := Acct.dinOf_of_cached hc
  have hk2 : k - 12 + 12 = k := by omega
  obtain ⟨-, hr⟩ := (assertInuse_bind_iff h.geo.bits).1 hr
  rw [Code.assert_bind_eq_some] at hr
  obtain ⟨m, v, h₁, hr⟩ | ⟨e, h₁, rfl⟩ := Code.bind_eq_some.1 hr.2
  · obtain ⟨rfl, hm | ⟨e, he, -⟩⟩ := rbuf_eq_some h₁
    · cases hm
      rw [Bytes.word_from', ← bmap_indirect hc hk hn] at hr
      split at hr
      · rename_i h0
        obtain ⟨a, w, h₂, hr⟩ | ⟨e, h₂, rfl⟩ := Code.bind_eq_some.1 hr
        · obtain ⟨-, rfl⟩ | ⟨e, n, he, -⟩ := wbuf_eq_some h₂
          · have hw := h.wait 3
            have hbm := fun j (hj : j ∈ I) k' (hk' : k' < 1036) => hw.bmap_setEntry (fun _ => 0) hi
              (by rw [Acct.dinOf_of_cached (s := s.wait 3) hc]; exact hn) (k := k - 12)
              (by omega) hj hk'
            have hcl := hw.clearEntry hi
              (by rw [Acct.dinOf_of_cached (s := s.wait 3) hc]; exact hn) (k := k - 12)
              (by omega) (b := s.bmap i k) (by rw [hk2]; rfl) h0
            rw [Acct.dinOf_of_cached (s := s.wait 3) hc] at hcl hbm
            obtain ⟨hu, rfl, rfl⟩ := (blockFree_iff hcl.geo.bits).1 hr
            have hg := hcl.give (Set.mem_insert _ E)
            rw [Set.insert_sdiff_self_of_notMem (h.not_lent_data hi hk')] at hg
            refine .inl ⟨rfl, ?_, rfl⟩
            exact
              { acct := hg
                blocks := rfl
                cached := rfl
                sin := fun _ _ => rfl
                size := rfl
                type := rfl
                bmap := fun j hj k' hk'' => by
                  refine (hbm j hj k' hk'').trans ?_
                  rw [hk2, Bytes.word_zero]
                  rfl
                used := fun c hcu hne => (Sfs.used_give_iff hu).2 ⟨hcu, hne⟩
                disk := fun c _ hne => by
                  refine (Sfs.disk_setBlock _).trans ?_
                  rw [if_neg fun e => hne i hi (by rw [hdi, e]; rfl)]
                  rfl }
          · cases he
        · obtain ⟨he, -⟩ | ⟨e', n, -, hf, rfl⟩ := wbuf_eq_some h₂
          · cases he
          · exact .inr ⟨e, 1 + n, rfl, hf, Sfs.wait_wait n⟩
      · rename_i h0
        obtain ⟨rfl, rfl⟩ := Code.pure_eq_some.1 hr
        exact .inl ⟨rfl, .of_empty h (.inl (not_not.1 h0)) 1, rfl⟩
    · cases he
  · obtain ⟨rfl, hm | ⟨e', -, hf⟩⟩ := rbuf_eq_some h₁
    · cases hm
    · exact .inr ⟨e, 1, rfl, hf, rfl⟩

theorem bmapFree_spec (h : Acct I E s) (hc : s.cached i = true) {r : Except Errno Unit}
    (hr : bmapFree dev i k s = some (r, t)) :
    (r = .ok () ∧ Unmapped I E s t i k ∧ (t.din i).blocks = (s.din i).blocks) ∨
      ∃ e n, r = .error e ∧ dev.Faulty ∧ t = s.wait n := by
  rw [bmapFree, Code.get_bind_eq_some] at hr
  split at hr
  · rename_i hk
    rw [← bmap_direct hc hk] at hr
    split at hr
    · rename_i h0
      have hu := h.data_used (h.cached i hc) (by omega) h0
      obtain ⟨a, v, h₁, hr⟩ | ⟨e, h₁, -⟩ := Code.bind_eq_some.1 hr
      · obtain ⟨-, -, rfl⟩ := (blockFree_iff h.geo.bits).1 h₁
        obtain ⟨rfl, rfl⟩ := Code.modify_eq_some.1 hr
        refine .inl ⟨rfl, bmapFree_direct h hc hk h0, ?_⟩
        rw [Sfs.din_setDin, if_pos rfl]
        rfl
      · cases ((blockFree_iff h.geo.bits).1 h₁).2.1
    · rename_i h0
      obtain ⟨rfl, rfl⟩ := Code.pure_eq_some.1 hr
      exact .inl ⟨rfl, .of_empty h (.inl (not_not.1 h0)) 0, rfl⟩
  · rename_i hk
    split at hr
    · rename_i hk'
      obtain ⟨rfl, hu, hs⟩ | hf := bmapFreeSub_spec h hc hk (by omega) hk'.2 hr
      · exact .inl ⟨rfl, hu, by rw [Sfs.din, Sfs.din, hs]⟩
      · exact .inr hf
    · rename_i hk'
      obtain ⟨rfl, rfl⟩ := Code.pure_eq_some.1 hr
      refine .inl ⟨rfl, .of_empty h ?_ 0, rfl⟩
      by_cases hlt : k < 1036
      · exact .inl (bmap_of_no_indirect hc hk (by_contra fun hn => hk' ⟨by omega, hn⟩))
      · exact .inr hlt

/-- **`sfs_bmap_truncate_nolock`.** -/
theorem bmapTruncate_spec (h : Acct I E s) (hc : s.cached i = true) {r : Except Errno Unit}
    (hr : bmapTruncate dev i s = some (r, t)) : (s.din i).blocks ≠ 0 ∧
      ((r = .ok () ∧ Unmapped I E s t i ((s.din i).blocks - 1) ∧
        (t.din i).blocks = (s.din i).blocks - 1) ∨
      ∃ e n, r = .error e ∧ dev.Faulty ∧ t = s.wait n) := by
  rw [bmapTruncate, Code.get_bind_eq_some, Code.assert_bind_eq_some] at hr
  refine ⟨hr.1, ?_⟩
  obtain ⟨a, v, h₁, hr⟩ | ⟨e, h₁, rfl⟩ := Code.bind_eq_some.1 hr.2
  · obtain ⟨-, hu, hb⟩ | ⟨e, n, he, -⟩ := bmapFree_spec h hc h₁
    · obtain ⟨rfl, rfl⟩ := Code.modify_eq_some.1 hr
      have hcv : v.cached i = true := by rw [hu.cached, hc]
      refine .inl ⟨rfl, ?_, ?_⟩
      · exact
          { acct := hu.acct.setSin_same hcv rfl rfl rfl fun hd => by cases hd
            blocks := hu.blocks
            cached := hu.cached
            sin := fun j hj => by rw [Sfs.setDin, Sfs.sin_setSin, if_neg hj, hu.sin j hj]
            size := by rw [Sfs.din_setDin, if_pos rfl, ← hu.size]
            type := by rw [Sfs.din_setDin, if_pos rfl, ← hu.type]
            bmap := fun j hj k' hk' => by
              rw [Sfs.setDin, bmap_setSin hcv rfl rfl, hu.bmap j hj k' hk']
            used := hu.used
            disk := hu.disk }
      · rw [Sfs.din_setDin, if_pos rfl, ← hb]
    · cases he
  · obtain ⟨he, -⟩ | hf := bmapFree_spec h hc h₁
    · cases he
    · exact .inr hf

end

end Ucore
