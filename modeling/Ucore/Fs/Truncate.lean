/-
  What `sfs_truncfile` does to the contents of a file.

  * `bmapLoad_zero`: a block that is added to a file is cleared;
  * `Resized`: the file has other blocks, and the bytes of the blocks that it has now are as before;
  * `ZeroTail`: the bytes that a longer file shows of a block that it had are 0;
  * `truncate_law`: so a file that is made longer is extended with zeros exactly if they are.
-/
import Ucore.Fs.FileIo

namespace Ucore

/-- `f` cut to `len` bytes, or extended to `len` bytes with zeros. -/
def resized (f : List UInt8) (len : ℕ) : List UInt8 :=
  f.take len ++ List.replicate (len - f.length) 0

/-- File `i` has entries for its blocks, and no others. -/
def ExactMap (s : Sfs) (i : ℕ) : Prop := ∀ k < 1036, s.bmap i k ≠ 0 ↔ k < (s.din i).blocks

/-- The bytes of file `i` from `n` to `m` are 0, as far as they are in the block that ends the first
    `n` bytes. -/
def ZeroTail (s : Sfs) (i n m : ℕ) : Prop :=
  ∀ p, n ≤ p → p < m → p / 4096 < (n + 4095) / 4096 → s.byte i p = 0

variable {dev : Device} {I : Finset ℕ} {E : Set ℕ} {s t u v : Sfs} {i j k b n m p : ℕ}
  {ent : ℕ} {e : Errno}

/-! ## New blocks -/

theorem blockAlloc_zero (h : Acct I E s) (hr : blockAlloc dev s = some (.ok b, t)) :
    s.Free b ∧ ∀ q < 4096, t.disk b q = 0 := by
  obtain ⟨c, hb, hfree, rfl⟩ | ⟨c, e, he, -⟩ | ⟨he, -⟩ := blockAlloc_eq_some h.geo hr
  · cases hb
    refine ⟨hfree, fun q hq => ?_⟩
    rw [Sfs.disk_setBlock, if_pos rfl, Bytes.copy_of_mem (Nat.zero_le q) (by omega)]
  · cases he
  · cases he

theorem failedCleanup_ne_ok {entp : ℕ} {a : ℕ × ℕ} :
    failedCleanup entp ent e s ≠ some (.ok a, t) := by
  unfold failedCleanup
  intro hr
  split at hr
  · obtain ⟨_, _, -, hr⟩ := Code.bind_eq_ok.1 hr
    cases hr
  · cases hr

theorem bmapAddEntry_zero {entp : ℕ} {a : ℕ × ℕ} (h : Acct I E s) (hent : s.Used ent)
    (hr : bmapAddEntry dev entp ent k s = some (.ok a, t)) : ∀ q < 4096, t.disk a.2 q = 0 := by
  obtain ⟨r, v, h₁, hr⟩ := Code.attempt_bind_eq_some.1 hr
  cases r with
  | error e => exact absurd hr failedCleanup_ne_ok
  | ok c =>
    obtain ⟨hfree, hz⟩ := blockAlloc_zero h h₁
    obtain ⟨r, w, h₂, hr⟩ := Code.attempt_bind_eq_some.1 hr
    cases r with
    | error e =>
      obtain ⟨_, _, -, hr⟩ := Code.bind_eq_ok.1 hr
      exact absurd hr failedCleanup_ne_ok
    | ok _ =>
      obtain ⟨ha, rfl⟩ := Code.pure_eq_some.1 hr
      cases ha
      obtain ⟨-, rfl⟩ | ⟨e, _, he, -⟩ := wbuf_eq_some h₂
      · intro q hq
        rw [Sfs.disk_setBlock, if_neg fun e : c = ent =>
          Sfs.Geometry.not_used_of_free hfree (e ▸ hent)]
        exact hz q hq
      · cases he

theorem bmapAddEntry_bits {entp : ℕ} {a : ℕ × ℕ} (h : Acct I E s)
    (hr : bmapAddEntry dev entp ent k s = some (.ok a, t)) : t.blocks ≤ t.freemap.nbits := by
  obtain ⟨b, v, -, -, -, ha, -, rfl⟩ | ⟨e, v, -, -, hr⟩ := bmapAddEntry_spec h hr
  · exact ha.geo.bits
  · exact absurd hr failedCleanup_ne_ok

/-- A new entry of the indirect block. -/
theorem bmapGetIndirect_zero (h : Acct I E s) (hc : s.cached i = true) (hk : ¬k < 12)
    (h0 : s.bmap i k = 0)
    (hr : bmapGetIndirect dev i (k - 12) true s = some (.ok b, t)) :
      ∀ q < 4096, t.disk b q = 0 := by
  rw [bmapGetIndirect, Code.get_bind_eq_some] at hr
  obtain ⟨⟨ent, c⟩, v, h₁, hr⟩ := Code.bind_eq_ok.1 hr
  -- the block has been allocated for it
  have hsub : (∀ q < 4096, v.disk c q = 0) ∧ v.blocks ≤ v.freemap.nbits := by
    rw [bmapGetSub, Code.assert_bind_eq_some] at h₁
    obtain ⟨-, h₁⟩ := h₁
    by_cases hn : (s.din i).indirect = 0
    · rw [hn, if_neg (not_not.2 rfl), if_neg (by simp)] at h₁
      obtain ⟨ent, w, h₂, h₁⟩ := Code.bind_eq_ok.1 h₁
      obtain ⟨b', hb', hb, hs, ha, -⟩ | ⟨e, he, -⟩ := blockAlloc_spec h h₂
      · cases hb'
        exact ⟨bmapAddEntry_zero ha (ha.lent_used (Set.mem_insert ent E)) h₁,
          bmapAddEntry_bits ha h₁⟩
      · cases he
    · have hu := h.indirect_used (h.cached i hc) (by rw [Acct.dinOf_of_cached hc]; exact hn)
      rw [Acct.dinOf_of_cached hc] at hu
      rw [if_pos hn] at h₁
      obtain ⟨m, w, h₂, h₁⟩ := Code.bind_eq_ok.1 h₁
      obtain ⟨rfl, hm | ⟨e, he, -⟩⟩ := rbuf_eq_some h₂
      · cases hm
        rw [Bytes.word_from', ← bmap_indirect hc hk hn, if_neg (by simp [h0])] at h₁
        exact ⟨bmapAddEntry_zero (h.wait 1) hu h₁, bmapAddEntry_bits (h.wait 1) h₁⟩
      · cases he
  dsimp only at hr
  split at hr
  · rw [Code.assert_bind_eq_some, Code.modify_bind_eq_some] at hr
    obtain ⟨-, hb, rfl⟩ := (bmapGetOut_iff (s := v.setDin i _) hsub.2).1 hr.2
    cases hb
    exact hsub.1
  · obtain ⟨-, hb, rfl⟩ := (bmapGetOut_iff hsub.2).1 hr
    cases hb
    exact hsub.1

/-- **A block that is added to a file is cleared.** -/
theorem bmapLoad_zero (h : Acct I E s) (hc : s.cached i = true) (hk : k = (s.din i).blocks)
    (h0 : s.bmap i k = 0) (hr : bmapLoad dev i k s = some (.ok b, t)) :
    ∀ q < 4096, t.disk b q = 0 := by
  rw [bmapLoad, Code.get_bind_eq_some, Code.assert_bind_eq_some] at hr
  obtain ⟨c, v, h₁, hr⟩ := Code.bind_eq_ok.1 hr.2
  rw [decide_eq_true hk] at h₁
  have hget : (∀ q < 4096, v.disk c q = 0) ∧ v.blocks ≤ v.freemap.nbits := by
    obtain ⟨c', hc', hg⟩ | ⟨e, he, -⟩ := bmapGet_new h hc (bmapGet_lt h₁) h0 h₁
    · refine ⟨?_, hg.acct.geo.bits⟩
      unfold bmapGet at h₁
      split at h₁
      · rename_i hd
        rw [bmapGetDirect, Code.get_bind_eq_some, ← bmap_direct hc hd, if_pos ⟨h0, rfl⟩] at h₁
        obtain ⟨b, w, h₂, h₁⟩ := Code.bind_eq_ok.1 h₁
        obtain ⟨b', -, -, -, ha, -⟩ | ⟨e, he, -⟩ := blockAlloc_spec h h₂
        · rw [Code.modify_bind_eq_some] at h₁
          obtain ⟨-, hb, rfl⟩ := (bmapGetOut_iff (s := w.setDin i _) ha.geo.bits).1 h₁
          cases hb
          exact (blockAlloc_zero h h₂).2
        · cases he
      · rename_i hd
        split at h₁
        · exact bmapGetIndirect_zero h hc hd h0 h₁
        · cases h₁
    · cases he
  obtain ⟨-, hr⟩ := (assertInuse_bind_iff hget.2).1 hr
  rw [if_pos hk, Code.modify_bind_eq_some] at hr
  obtain ⟨hb, rfl⟩ := Code.pure_eq_some.1 hr
  cases hb
  exact hget.1

/-! ## Blocks are added and freed -/

/-- File `i` has other blocks, for which the bytes are as before, and nothing else has changed. -/
structure Resized (I : Finset ℕ) (E : Set ℕ) (s t : Sfs) (i : ℕ) : Prop where
  acct : Acct I E t
  cached : t.cached = s.cached
  map : ExactMap t i
  size : (t.din i).size = (s.din i).size
  type : (t.din i).type = (s.din i).type
  others : ∀ j ∈ I, j ≠ i → t.dinOf j = s.dinOf j ∧ ∀ p, t.byte j p = s.byte j p
  kept : ∀ p, p / 4096 < (t.din i).blocks → t.byte i p = s.byte i p

/-- There are no bytes behind the blocks. -/
theorem ExactMap.byte (h : ExactMap s i) (hp : (s.din i).blocks ≤ p / 4096) : s.byte i p = 0 :=
  if_neg fun ⟨hk, h0⟩ => absurd ((h _ hk).1 h0) (by omega)

namespace Resized

theorem refl (h : Acct I E s) (hm : ExactMap s i) : Resized I E s s i :=
  ⟨h, rfl, hm, rfl, rfl, fun _ _ _ => ⟨rfl, fun _ => rfl⟩, fun _ _ => rfl⟩

theorem trans (h : Resized I E s t i) (h' : Resized I E t u i) (hm : ExactMap s i)
    (hmono : (u.din i).blocks ≤ (t.din i).blocks ∨ (s.din i).blocks ≤ (t.din i).blocks) :
    Resized I E s u i where
  acct := h'.acct
  cached := h'.cached.trans h.cached
  map := h'.map
  size := h'.size.trans h.size
  type := h'.type.trans h.type
  others j hj hji :=
    ⟨(h'.others j hj hji).1.trans (h.others j hj hji).1, fun p =>
      ((h'.others j hj hji).2 p).trans ((h.others j hj hji).2 p)⟩
  kept p hp := by
    rw [h'.kept p hp]
    by_cases hpt : p / 4096 < (t.din i).blocks
    · exact h.kept p hpt
    · rw [h.map.byte (by omega), hm.byte (by omega)]

end Resized

theorem Loaded.resized (h : Loaded I E s t i k b) (ha : Acct I E s) (hc : s.cached i = true)
    (hm : ExactMap s i) (hk : k = (s.din i).blocks) (hk' : k < 1036)
    (hz : ∀ q < 4096, t.disk b q = 0) : Resized I E s t i := by
  have hi := ha.cached i hc
  have h0 : s.bmap i k = 0 := not_not.1 fun h0 => absurd ((hm k hk').1 h0) (by omega)
  have hmap (k' : ℕ) (hk' : k' < 1036) : t.bmap i k' = if k' = k then b else s.bmap i k' := by
    rw [h.mapped.bmap i hi k' hk']
    simp
  have hblocks : (t.din i).blocks = k + 1 := by
    rw [h.blocks, hk]
    omega
  refine ⟨h.acct, h.mapped.cached, fun k' hk' => ?_, h.mapped.size, h.mapped.type,
    fun j hj hji =>
      ⟨h.mapped.dinOf ha hj hji, fun p => h.mapped.byte ha hj (.inl fun e => hji e.1)⟩,
    fun p hp => ?_⟩
  · rw [hmap k' hk', hblocks]
    split
    · rename_i e
      exact ⟨fun _ => by omega, fun _ => h.mapped.ne_zero⟩
    · rw [hm k' hk']
      omega
  · by_cases hpk : p / 4096 = k
    · rw [hm.byte (by omega), Sfs.byte, hmap _ (by omega), if_pos hpk,
        if_pos ⟨by omega, h.mapped.ne_zero⟩]
      exact hz _ (Nat.mod_lt p (by omega))
    · exact h.mapped.byte ha hi (.inl fun e => hpk e.2)

/-- **The loop that makes a file longer.** -/
theorem growLoop_resized : ∀ {n k : ℕ} {s : Sfs}, Acct I E s → s.cached i = true → ExactMap s i →
    k = (s.din i).blocks → growLoop dev i k n s = some (.ok (), t) →
      Resized I E s t i ∧ (t.din i).blocks = k + n
  | 0, k, s, h, _, hm, hk, hr => by
    obtain ⟨-, rfl⟩ := Code.pure_eq_some.1 hr
    exact ⟨.refl h hm, hk.symm⟩
  | n + 1, k, s, h, hc, hm, hk, hr => by
    obtain ⟨b, v, h₁, hr⟩ := Code.bind_eq_ok.1 hr
    obtain ⟨-, hk', ⟨b', hb, hl⟩ | ⟨e, he, -⟩⟩ := bmapLoad_spec h hc h₁
    · cases hb
      have h0 : s.bmap i k = 0 := not_not.1 fun h0 => absurd ((hm k hk').1 h0) (by omega)
      have hres := hl.resized h hc hm hk hk' (bmapLoad_zero h hc hk h0 h₁)
      have hblocks : k + 1 = (v.din i).blocks := by
        rw [hl.blocks, hk]
        omega
      obtain ⟨hrest, hbt⟩ :=
        growLoop_resized hres.acct (by rw [hres.cached, hc]) hres.map hblocks hr
      exact ⟨hres.trans hrest hm (.inr (by omega)), by omega⟩
    · cases he

theorem Unmapped.byte (h : Unmapped I E s t i k) (ha : Acct I E s) (hj : j ∈ I)
    (hne : ¬(j = i ∧ p / 4096 = k)) : t.byte j p = s.byte j p := by
  unfold Sfs.byte
  by_cases hk : p / 4096 < 1036
  · have hbm : t.bmap j (p / 4096) = s.bmap j (p / 4096) := by rw [h.bmap j hj _ hk, if_neg hne]
    rw [hbm]
    by_cases h0 : s.bmap j (p / 4096) = 0
    · rw [if_neg fun e => e.2 h0, if_neg fun e => e.2 h0]
    · rw [if_pos ⟨hk, h0⟩, if_pos ⟨hk, h0⟩, h.disk _ (ha.data_used hj hk h0)
        fun _ hl => ha.data_ne_indirect hj hk hl h0]
  · rw [if_neg fun e => hk e.1, if_neg fun e => hk e.1]

theorem Unmapped.resized (h : Unmapped I E s t i ((s.din i).blocks - 1)) (ha : Acct I E s)
    (hc : s.cached i = true) (hm : ExactMap s i)
    (hblocks : (t.din i).blocks = (s.din i).blocks - 1) : Resized I E s t i := by
  have hi := ha.cached i hc
  refine ⟨h.acct, h.cached, fun k hk => ?_, h.size, h.type,
    fun j hj hji => ⟨h.dinOf ha hj hji, fun p => h.byte ha hj fun e => hji e.1⟩,
    fun p hp => h.byte ha hi fun e => by omega⟩
  rw [h.bmap i hi k hk, hblocks]
  split
  · rename_i e
    exact ⟨fun hn => absurd rfl hn, fun hlt => absurd e.2 (Nat.ne_of_lt hlt)⟩
  · rename_i hne
    have hk1 : k ≠ (s.din i).blocks - 1 := fun e => hne ⟨rfl, e⟩
    rw [hm k hk]
    omega

/-- **The loop that makes a file shorter.** -/
theorem shrinkLoop_resized : ∀ {n : ℕ} {s : Sfs}, Acct I E s → s.cached i = true → ExactMap s i →
    shrinkLoop dev i n s = some (.ok (), t) →
      Resized I E s t i ∧ (t.din i).blocks + n = (s.din i).blocks
  | 0, s, h, _, hm, hr => by
    obtain ⟨-, rfl⟩ := Code.pure_eq_some.1 hr
    exact ⟨.refl h hm, rfl⟩
  | n + 1, s, h, hc, hm, hr => by
    obtain ⟨_, v, h₁, hr⟩ := Code.bind_eq_ok.1 hr
    obtain ⟨h0, ⟨-, hu, hb⟩ | ⟨e, _, he, -⟩⟩ := bmapTruncate_spec h hc h₁
    · have hres := hu.resized h hc hm hb
      obtain ⟨hrest, hbt⟩ := shrinkLoop_resized hres.acct (by rw [hres.cached, hc]) hres.map hr
      have hle : (t.din i).blocks ≤ (v.din i).blocks := by omega
      exact ⟨hres.trans hrest hm (.inl hle), by omega⟩
    · cases he

theorem resize_resized (h : Acct I E s) (hc : s.cached i = true) (hm : ExactMap s i)
    (hr : resize dev i (s.din i).blocks n s = some (.ok (), t)) :
    Resized I E s t i ∧ (t.din i).blocks = n := by
  unfold resize at hr
  split at hr
  · obtain ⟨hres, hb⟩ := growLoop_resized h hc hm rfl hr
    exact ⟨hres, by omega⟩
  · obtain ⟨hres, hb⟩ := shrinkLoop_resized h hc hm hr
    exact ⟨hres, by omega⟩

/-! ## The call -/

/-- A regular file whose map has entries for its blocks, and no others. -/
structure SoundFile (s : Sfs) (i : ℕ) : Prop extends RegularFile s i where
  exact : ExactMap s i

/-- What `sfs_truncfile` has done, but for the bytes behind the old end. -/
structure Truncated (I : Finset ℕ) (E : Set ℕ) (s t : Sfs) (i len : ℕ) : Prop where
  acct : Acct I E t
  file : SoundFile t i
  size : (t.din i).size = len
  blocks : (t.din i).blocks = (len + 4095) / 4096
  others : ∀ j ∈ I, j ≠ i → t.dinOf j = s.dinOf j ∧ t.contents j = s.contents j
  kept : ∀ p, p / 4096 < (len + 4095) / 4096 → t.byte i p = s.byte i p

theorem Truncated.refl (h : Acct I E s) (hf : SoundFile s i) :
    Truncated I E s s i (s.din i).size :=
  ⟨h, hf, rfl, hf.blocks, fun _ _ _ => ⟨rfl, rfl⟩, fun _ _ => rfl⟩

/-- The size is set when the blocks are there. -/
theorem Resized.truncated {len : ℕ} (h : Resized I E s v i) (hf : SoundFile s i)
    (hb : (v.din i).blocks = (len + 4095) / 4096) :
    Truncated I E s (v.setDin i fun din => { din with size := len }) i len := by
  have hcv : v.cached i = true := by rw [h.cached, hf.cached]
  obtain ⟨t, ht⟩ : ∃ t, t = v.setDin i fun din => { din with size := len } := ⟨_, rfl⟩
  have hbyte (j p : ℕ) : t.byte j p = v.byte j p := ht ▸ byte_setDin_size hcv len
  have hmap (k : ℕ) : t.bmap i k = v.bmap i k := ht ▸ bmap_setSin hcv rfl rfl
  have hdin : t.din i = { v.din i with size := len } := by rw [ht, Sfs.din_setDin, if_pos rfl]
  have hacct : Acct I E t := ht ▸ h.acct.setSin_same hcv rfl rfl rfl fun hd => by cases hd
  have hexact : ExactMap t i := fun k hk => by
    rw [hmap, hdin]
    exact h.map k hk
  have hblocks : (t.din i).blocks = (len + 4095) / 4096 := by rw [hdin, ← hb]
  have hcached : t.cached i = true := by
    rw [ht]
    exact hcv
  rw [← ht]
  refine ⟨hacct, ⟨⟨hcached, ?_, ?_, fun k hk hlt => (hexact k hk).2 hlt⟩, hexact⟩, by rw [hdin],
    hblocks, fun j hj hji => ?_, fun p hp => ?_⟩
  · rw [hdin]
    exact h.type.trans hf.type
  · rw [hblocks, hdin]
  · have hdj : t.dinOf j = s.dinOf j := by
      rw [ht, Sfs.setDin, Acct.dinOf_setSin hcv, if_neg hji, (h.others j hj hji).1]
    refine ⟨hdj, ?_⟩
    rw [Sfs.contents, Sfs.contents, hdj]
    exact List.map_congr_left fun p _ => (hbyte j p).trans ((h.others j hj hji).2 p)
  · rw [hbyte, h.kept p (by omega)]

/-- **`sfs_truncfile`.** -/
theorem truncfile_truncated {len : ℕ} (h : Acct I E s) (hf : SoundFile s i)
    (hr : truncfile dev i len s = some (.ok (), t)) : Truncated I E s t i len := by
  unfold truncfile at hr
  split at hr
  · cases hr
  · rw [Code.get_bind_eq_some] at hr
    split at hr
    · rename_i hsize
      obtain ⟨-, -, rfl⟩ := Code.assert_eq_some.1 hr
      exact Int.ofNat.inj hsize ▸ .refl h hf
    · obtain ⟨_, v, h₁, hr⟩ := Code.bind_eq_ok.1 hr
      rw [Int.toNat_natCast] at h₁ hr
      obtain ⟨hres, hb⟩ := resize_resized h hf.cached hf.exact h₁
      rw [Code.get_bind_eq_some, Code.assert_bind_eq_some] at hr
      obtain ⟨-, rfl⟩ := Code.modify_eq_some.1 hr.2
      exact hres.truncated hf hb

/-- A seek to a position that is not in front of the end. -/
theorem tryseek_truncated {pos : ℕ} (h : Acct I E s) (hf : SoundFile s i)
    (hle : (s.din i).size ≤ pos) (hr : tryseek dev i pos s = some (.ok (), t)) :
    Truncated I E s t i pos := by
  unfold tryseek at hr
  split at hr
  · cases hr
  · rw [Code.get_bind_eq_some] at hr
    split at hr
    · exact truncfile_truncated h hf hr
    · rename_i hlt
      obtain ⟨-, rfl⟩ := Code.pure_eq_some.1 hr
      have hpos : pos = (t.din i).size := by omega
      exact hpos ▸ .refl h hf

/-! ## Contents -/

theorem length_resized (f : List UInt8) (len : ℕ) : (resized f len).length = len := by
  rw [resized, List.length_append, List.length_take, List.length_replicate]
  omega

/-- An array is extended with zeros if `f` is 0 there. -/
theorem range_eq_resized {f : ℕ → UInt8} {len : ℕ} :
    (List.range len).map f = resized ((List.range n).map f) len ↔ ∀ p, n ≤ p → p < len →
      f p = 0 := by
  have hget (p : ℕ) (hp : p < len) : (resized ((List.range n).map f) len)[p]? =
      if p < n then some (f p) else some 0 := by
    rw [resized, ← List.map_take, List.take_range, List.getElem?_append, List.length_map,
      List.length_range, List.length_map, List.length_range]
    by_cases hpn : p < n
    · rw [if_pos (by omega), if_pos hpn, List.getElem?_map, List.getElem?_range (by omega),
        Option.map_some]
    · rw [if_neg (by omega), if_neg hpn, List.getElem?_replicate, if_pos (by omega)]
  have hrange (p : ℕ) (hp : p < len) : ((List.range len).map f)[p]? = some (f p) := by
    rw [List.getElem?_map, List.getElem?_range hp, Option.map_some]
  constructor
  · intro h p hn hp
    have heq := hrange p hp
    rw [h, hget p hp, if_neg (by omega)] at heq
    exact (Option.some.inj heq).symm
  · intro h
    refine List.ext_getElem? fun p => ?_
    by_cases hp : p < len
    · rw [hrange p hp, hget p hp]
      split
      · rfl
      · rw [h p (by omega) hp]
    · rw [List.getElem?_eq_none (by simp; omega), List.getElem?_eq_none (by
        rw [length_resized]; omega)]

theorem SoundFile.contents (hf : SoundFile s i) :
    s.contents i = (List.range (s.din i).size).map (s.byte i) := by
  rw [Sfs.contents, Acct.dinOf_of_cached hf.cached]

/-- **The contents** are cut, or extended with zeros, exactly if the tail is 0. -/
theorem Truncated.contents_iff {len : ℕ} (h : Truncated I E s t i len) (hf : SoundFile s i) :
    t.contents i = resized (s.contents i) len ↔ ZeroTail s i (s.din i).size len := by
  have hbytes : t.contents i = (List.range len).map (s.byte i) := by
    rw [h.file.contents, h.size]
    exact List.map_congr_left fun p hp => h.kept p (by
      have := List.mem_range.1 hp
      omega)
  rw [hbytes, hf.contents, range_eq_resized]
  refine ⟨fun hz p hn hp _ => hz p hn hp, fun hz p hn hp => ?_⟩
  by_cases hlt : p / 4096 < ((s.din i).size + 4095) / 4096
  · exact hz p hn hp hlt
  · exact hf.exact.byte (by rw [hf.blocks]; omega)

/-- What is kept of a file that is made shorter. -/
theorem Truncated.take (h : Truncated I E s t i n) (hf : SoundFile s i) (hn : n ≤ (s.din i).size) :
    t.contents i = (s.contents i).take n := by
  have hz : ZeroTail s i (s.din i).size n := fun p hp hlt => by omega
  rw [(h.contents_iff hf).2 hz, resized, length_contents, Acct.dinOf_of_cached hf.cached,
    Nat.sub_eq_zero_of_le hn, List.replicate_zero, List.append_nil]

theorem Truncated.zeroTail_iff (h : Truncated I E s t i n) :
    ZeroTail t i n m ↔ ZeroTail s i n m :=
  forall_congr' fun p => forall_congr' fun _ => forall_congr' fun _ => forall_congr' fun hp => by
    rw [h.kept p hp]

/-- Reading file `i` from its start returns `f`. -/
def Sfs.ReadsBack (dev : Device) (s : Sfs) (i : ℕ) (f : List UInt8) : Prop :=
  ∀ buf : Bytes, ∃ n buf', ioNolock dev i buf 0 f.length false s =
    some (.ok ⟨none, f.length, buf'⟩, s.wait n) ∧ (List.range f.length).map buf' = f

theorem SoundFile.readsBack (h : Acct I E s) (hf : SoundFile s i) (hd : ¬dev.Faulty)
    (hcap : (s.din i).size ≤ 1036 * 4096) : s.ReadsBack dev i (s.contents i) := by
  intro buf
  have hread : ∃ n buf', ioNolock dev i buf (0 : ℕ) (s.din i).size false s =
      some (.ok ⟨none, min (0 + (s.din i).size) (s.din i).size - 0, buf'⟩, s.wait n) ∧ _ :=
    io_read hd h hf.toRegularFile (Nat.zero_le (s.din i).size) (by omega)
  obtain ⟨n, buf', hr, hbuf⟩ := hread
  have hlen : (s.contents i).length = (s.din i).size := by
    rw [length_contents, Acct.dinOf_of_cached hf.cached]
  rw [Nat.zero_add, Nat.min_self, Nat.sub_zero] at hr hbuf
  rw [List.drop_zero, List.take_of_length_le (by omega)] at hbuf
  rw [hlen]
  exact ⟨n, buf', hr, hbuf⟩

/-- **The truncate law.** When `sfs_truncfile` succeeds, the file has its new size and number of
blocks, no other file has changed, and the contents are cut or extended with zeros exactly if
`ZeroTail` holds; so it is when a file is made shorter and longer again. -/
theorem truncate_law (h : Acct I E s) (hf : SoundFile s i) :
    (∀ len : ℕ, len ≤ 1036 * 4096 → ∀ t, truncfile dev i len s = some (.ok (), t) →
      (t.din i).size = len ∧ (t.din i).blocks = (len + 4095) / 4096 ∧
      (∀ j ∈ I, j ≠ i → t.dinOf j = s.dinOf j ∧ t.contents j = s.contents j) ∧
      (t.contents i = resized (s.contents i) len ↔ ZeroTail s i (s.din i).size len)) ∧
    ∀ n m : ℕ, n ≤ (s.din i).size → n ≤ m → m ≤ 1036 * 4096 →
      ∀ u t, truncfile dev i n s = some (.ok (), u) →
      truncfile dev i m u = some (.ok (), t) ∨ tryseek dev i m u = some (.ok (), t) →
      (¬dev.Faulty → t.ReadsBack dev i (t.contents i)) ∧
      (t.contents i = (s.contents i).take n ++ List.replicate (m - n) 0 ↔ ZeroTail s i n m) := by
  refine ⟨fun len _ t hr => ?_, fun n m hn hm hcap u t hu ht => ?_⟩
  · have htr := truncfile_truncated h hf hr
    exact ⟨htr.size, htr.blocks, htr.others, htr.contents_iff hf⟩
  · have hun := truncfile_truncated h hf hu
    have hle : (u.din i).size ≤ m := by rw [hun.size]; exact hm
    have htm : Truncated I E u t i m :=
      ht.elim (truncfile_truncated hun.acct hun.file) (tryseek_truncated hun.acct hun.file hle)
    have hcon := htm.contents_iff hun.file
    have hlen : ((s.contents i).take n).length = n := by
      rw [List.length_take, length_contents, Acct.dinOf_of_cached hf.cached]
      omega
    rw [hun.size, hun.zeroTail_iff, hun.take hf hn, resized, hlen,
      List.take_of_length_le (by omega)] at hcon
    exact ⟨fun hd => htm.file.readsBack htm.acct hd (by rw [htm.size]; exact hcap), hcon⟩

/-! ## Two files -/

/-- A small file in memory that has no indirect block. -/
theorem SoundFile.of_direct (hc : s.cached i = true)
    (h : (s.din i).type = sfsTypeFile ∧ (s.din i).blocks = ((s.din i).size + 4095) / 4096 ∧
      (s.din i).indirect = 0 ∧ (s.din i).blocks ≤ 12 ∧
      ∀ k : Fin 12, (s.din i).direct k ≠ 0 ↔ k < (s.din i).blocks) : SoundFile s i := by
  obtain ⟨ht, hb, hn, hle, hd⟩ := h
  have hexact : ExactMap s i := fun k hk => by
    by_cases hlt : k < 12
    · rw [bmap_direct hc hlt]
      exact hd ⟨k, hlt⟩
    · rw [bmap_of_no_indirect hc hlt hn]
      omega
  exact ⟨⟨hc, ht, hb, fun k hk hlt => (hexact k hk).2 hlt⟩, hexact⟩

theorem ok_of_toBool {r : Except Errno Unit} (h : r.toBool = true) : r = .ok () := by
  cases r with
  | error e => cases h
  | ok a => rfl

/-- An empty file gets two blocks, and shows 5000 zeros. -/
theorem truncate_law_empty : ∃ s t, SoundFile s 3 ∧
    truncfile soundDevice 3 5000 s = some (.ok (), t) ∧ (t.din 3).blocks = 2 ∧
    t.contents 3 = resized (s.contents 3) 5000 := by
  obtain ⟨s, hs⟩ : ∃ s, s = Acct.loaded emptyFileImage 3 := ⟨_, rfl⟩
  have ha : Acct {1, 3} ∅ s :=
    hs ▸ mounted_emptyFileImage.acct.load (by decide) rfl (by decide +kernel)
  have hf : SoundFile s 3 := hs ▸ .of_direct rfl (by decide +kernel)
  have h0 : (s.din 3).size = 0 := by
    rw [hs]
    decide +kernel
  have hok : (truncfile soundDevice 3 5000 s).any (fun r => r.1.toBool) = true := by
    rw [hs]
    decide +kernel
  obtain ⟨⟨r, t⟩, hr, hb⟩ := (Option.any_eq_true _ _).1 hok
  obtain rfl := ok_of_toBool hb
  obtain ⟨-, hblocks, -, hiff⟩ := (truncate_law ha hf).1 5000 (by decide) t hr
  exact ⟨s, t, hf, hr, hblocks, hiff.2 fun p _ _ hp => absurd hp (by rw [h0]; omega)⟩

/-- Four bytes are written, all but the first are cut off, and two come back when the file is made
    longer. -/
theorem truncate_shows_old : ∃ s u t v, (blockMachine soundDevice {1, 3}).Reach s ∧
    SoundFile s 3 ∧ SoundFile u 3 ∧ truncfile soundDevice 3 1 s = some (.ok (), u) ∧
    (truncfile soundDevice 3 3 u = some (.ok (), t) ∧
      t.contents 3 ≠ resized (u.contents 3) 3) ∧
    tryseek soundDevice 3 3 u = some (.ok (), v) ∧
      v.contents 3 ≠ (s.contents 3).take 1 ++ List.replicate (3 - 1) 0 := by
  have hrun : (((blockMachine soundDevice {1, 3}).run emptyFileImage
      [.loadInode 3, .io 3 (fun _ => 7) 0 4 true]).bind fun s =>
        (truncfile soundDevice 3 1 s).bind fun u =>
          (truncfile soundDevice 3 3 u.2).bind fun t =>
            (tryseek soundDevice 3 3 u.2).bind fun v =>
              if ((s.cached 3 = true ∧ (s.din 3).type = sfsTypeFile ∧
                  (s.din 3).blocks = ((s.din 3).size + 4095) / 4096 ∧ (s.din 3).indirect = 0 ∧
                  (s.din 3).blocks ≤ 12 ∧
                  ∀ k : Fin 12, (s.din 3).direct k ≠ 0 ↔ k < (s.din 3).blocks) ∧
                (u.1.toBool = true ∧ t.1.toBool = true ∧ v.1.toBool = true)) ∧
                s.contents 3 = [7, 7, 7, 7] ∧ u.2.contents 3 = [7] ∧
                t.2.contents 3 = [7, 7, 7] ∧ v.2.contents 3 = [7, 7, 7] then some () else none) =
      some () := by decide +kernel
  obtain ⟨s, hs, hrun⟩ := Option.bind_eq_some_iff.1 hrun
  obtain ⟨⟨r, u⟩, hu, hrun⟩ := Option.bind_eq_some_iff.1 hrun
  obtain ⟨⟨r', t⟩, ht, hrun⟩ := Option.bind_eq_some_iff.1 hrun
  obtain ⟨⟨r'', v⟩, hv, hrun⟩ := Option.bind_eq_some_iff.1 hrun
  split at hrun
  · rename_i hc
    obtain ⟨⟨⟨hcached, hsound⟩, hru, hrt, hrv⟩, hcs, hcu, hct, hcv⟩ := hc
    have hreach := (Machine.Reach.init mounted_emptyFileImage).run hs
    have hf : SoundFile s 3 := .of_direct hcached hsound
    obtain rfl := ok_of_toBool hru
    obtain rfl := ok_of_toBool hrt
    obtain rfl := ok_of_toBool hrv
    have hun : Truncated {1, 3} ∅ s u 3 1 :=
      truncfile_truncated (reach_acct (fun _ => rfl) hreach) hf hu
    dsimp only at hcu hct hcv
    refine ⟨s, u, t, v, hreach, hf, hun.file, hu, ⟨ht, ?_⟩, hv, ?_⟩
    · rw [hct, hcu]
      decide
    · rw [hcv, hcs]
      decide
  · cases hrun

end Ucore
