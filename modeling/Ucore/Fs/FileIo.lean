/-
  `sfs_io_nolock` reads and writes a file as an array of bytes.

  * `Sfs.contents`: the bytes of a file, in the order of its blocks; `overwrite`: an array of bytes
    with some of them replaced, and made longer if need be;
  * `io_refines`: a write overwrites the contents, a read returns the bytes asked for.
-/
import Ucore.Fs.Reads

namespace Ucore

/-! ## Arrays of bytes -/

/-- `f` with `data` written at `off`. -/
def overwrite (f : List UInt8) (off : ℕ) (data : List UInt8) : List UInt8 :=
  f.take off ++ data ++ f.drop (off + data.length)

theorem getElem?_overwrite {f data : List UInt8} {off : ℕ} (h : off ≤ f.length) (p : ℕ) :
    (overwrite f off data)[p]? =
      if off ≤ p ∧ p < off + data.length then data[p - off]? else f[p]? := by
  have hlen : (f.take off).length = off := List.length_take_of_le h
  rw [overwrite, List.append_assoc, List.getElem?_append, hlen]
  by_cases hlt : p < off
  · rw [if_pos hlt, if_neg (by omega), List.getElem?_take_of_lt hlt]
  · rw [if_neg hlt, List.getElem?_append]
    by_cases hd : p < off + data.length
    · rw [if_pos (by omega), if_pos (by omega)]
    · rw [if_neg (by omega), if_neg (by omega), List.getElem?_drop,
        show off + data.length + (p - off - data.length) = p by omega]

/-! ## The contents of a file -/

namespace Sfs

/-- **The contents** of file `i`. -/
def contents (s : Sfs) (i : ℕ) : List UInt8 := (List.range (s.dinOf i).size).map (s.byte i)

end Sfs

variable {dev : Device} {I : Finset ℕ} {E : Set ℕ} {s t v : Sfs} {i j k b n p : ℕ}

/-! ## Writing -/

theorem Mapped.byte (h : Mapped I s t i k b) (ha : Acct I E s) (hj : j ∈ I)
    (hne : ¬(j = i ∧ p / 4096 = k) ∨ s.bmap i k ≠ 0) : t.byte j p = s.byte j p := by
  unfold Sfs.byte
  by_cases hk : p / 4096 < 1036
  · have hbm : t.bmap j (p / 4096) = s.bmap j (p / 4096) := by
      rw [h.bmap j hj _ hk]
      split
      · rename_i e
        rw [e.1, e.2]
        exact h.old (hne.resolve_left (not_not.2 e))
      · rfl
    rw [hbm]
    by_cases h0 : s.bmap j (p / 4096) = 0
    · rw [if_neg fun e => e.2 h0, if_neg fun e => e.2 h0]
    · rw [if_pos ⟨hk, h0⟩, if_pos ⟨hk, h0⟩, h.disk_data ha hj hk h0]
  · rw [if_neg fun e => hk e.1, if_neg fun e => hk e.1]

/-- Writing a block of a file changes its bytes only. -/
theorem byte_setBlock (h : Acct I E s) (m : Bytes) (hi : i ∈ I) (hk : k < 1036)
    (h0 : s.bmap i k ≠ 0) (hj : j ∈ I) : (s.setBlock (s.bmap i k) m).byte j p =
      if j = i ∧ p / 4096 = k then (s.setBlock (s.bmap i k) m).disk (s.bmap i k) (p % 4096)
      else s.byte j p := by
  unfold Sfs.byte
  rw [h.bmap_setBlock_data m hi hk h0 hj]
  by_cases he : j = i ∧ p / 4096 = k
  · rw [if_pos he, he.1, he.2, if_pos ⟨hk, h0⟩]
  · rw [if_neg he]
    by_cases hp : p / 4096 < 1036 ∧ s.bmap j (p / 4096) ≠ 0
    · rw [if_pos hp, if_pos hp, Sfs.disk_setBlock, if_neg fun e => he ?_]
      obtain ⟨h1, h2⟩ := h.data_inj hj hp.1 hi hk hp.2 e
      exact ⟨h1, h2⟩
    · rw [if_neg hp, if_neg hp]

/-- File `i` has been written from `a` to `c` with the bytes of `buf` from `alen` on; no byte of
    another file has changed, nor any other byte of a block that file `i` had. -/
structure Written (I : Finset ℕ) (E : Set ℕ) (s t : Sfs) (i a c : ℕ) (buf : Bytes) (alen : ℕ) :
    Prop where
  acct : Acct I E t
  whole : WholeFile t i
  cached : t.cached = s.cached
  size : (t.din i).size = (s.din i).size
  type : (t.din i).type = (s.din i).type
  others : ∀ j ∈ I, j ≠ i → t.dinOf j = s.dinOf j ∧ ∀ p, t.byte j p = s.byte j p
  inside : ∀ p, a ≤ p → p < c → t.byte i p = buf (alen + (p - a))
  outside : ∀ p, p < a ∨ c ≤ p → p < (s.din i).blocks * 4096 → t.byte i p = s.byte i p
  blocks : (t.din i).blocks = max (s.din i).blocks (if a < c then (c + 4095) / 4096 else 0)

/-- **One piece is written.** -/
theorem writePiece (hd : ¬dev.Faulty) (h : Acct I E s) (hw : WholeFile s i) (hc : s.cached i = true)
    {q : Piece} {a : ℕ} (buf : Bytes) (alen : ℕ) (hq : q.blkno = a / 4096 ∧ q.blkoff = a % 4096 ∧
      0 < q.size ∧ q.blkoff + q.size ≤ 4096 ∧ (q.whole = true → q.blkoff = 0 ∧ q.size = 4096))
    (hk : q.blkno < 1036) (hkb : q.blkno ≤ (s.din i).blocks)
    (hs : s.cost i q.blkno ≤ s.unusedBlocks) :
    ∃ b v t, bmapLoad dev i q.blkno s = some (.ok b, v) ∧
      movePiece dev true q b buf alen v = some (.ok buf, t) ∧
      Loaded I E s v i q.blkno b ∧ t.unusedBlocks = v.unusedBlocks ∧
      (∀ k < 1036, t.bmap i k = v.bmap i k) ∧ t.dinOf i = v.dinOf i ∧
      Written I E s t i a (a + q.size) buf alen := by
  have hi := h.cached i hc
  obtain ⟨hblk, hoff, hpos, hle, hwh⟩ := hq
  obtain ⟨r, v, h₁⟩ : Code.Runs (bmapLoad dev i q.blkno) s := bmapLoad_runs h hc hkb hk (hw _ hk)
  obtain ⟨-, -, ⟨b, rfl, hl⟩ | ⟨e, -, -, hf | hf⟩⟩ := bmapLoad_spec h hc h₁
  · obtain ⟨r, t, h₂⟩ : Code.Runs (movePiece dev true q b buf alen) v :=
      movePiece_runs hl.mapped.in_use hpos hle
    obtain ⟨n, hwr, -⟩ | ⟨n, m, -, rfl, rfl, hdisk⟩ | ⟨e, n, -, hf, -⟩ := movePiece_spec hwh h₂
    · cases hwr
    · have hbm : (v.wait n).bmap i q.blkno = b := by
        change v.bmap i q.blkno = b
        rw [hl.mapped.bmap i hi _ hk, if_pos ⟨rfl, rfl⟩]
      have h0 : (v.wait n).bmap i q.blkno ≠ 0 := by rw [hbm]; exact hl.mapped.ne_zero
      have hav := hl.acct.wait n
      have hbyte := fun j (hj : j ∈ I) p => byte_setBlock (p := p) hav m hi hk h0 hj
      have hacct := hav.setBlock_data m hi hk h0
      have hmap : ∀ j ∈ I, ∀ k, ((v.wait n).setBlock b m).bmap j k = v.bmap j k := fun j hj k => by
        have hb : ((v.wait n).setBlock ((v.wait n).bmap i q.blkno) m).bmap j k = v.bmap j k :=
          hav.bmap_setBlock_data m hi hk h0 hj
        rwa [hbm] at hb
      rw [hbm] at hbyte hacct
      have hdin : ∀ j ∈ I, ((v.wait n).setBlock b m).dinOf j = v.dinOf j := fun j hj =>
        Acct.dinOf_setBlock (s := v.wait n) m (hbm ▸ hav.data_ne_inode hi hk hj)
      refine ⟨b, v, _, h₁, h₂, hl, rfl, fun k _ => hmap i hi k, hdin i hi, hacct,
        fun k hk' hlt => ?_, hl.mapped.cached, hl.mapped.size, hl.mapped.type,
        fun j hj hji => ⟨?_, fun p => ?_⟩, fun p hp1 hp2 => ?_, fun p hp1 hp2 => ?_, ?_⟩
      · have hlt' : k < max (s.din i).blocks (q.blkno + 1) := hl.blocks ▸ hlt
        rw [hmap i hi, hl.mapped.bmap i hi k hk']
        split
        · exact hl.mapped.ne_zero
        · rename_i hne
          have : k ≠ q.blkno := fun e => hne ⟨rfl, e⟩
          exact hw k hk' (by omega)
      · rw [hdin j hj, hl.mapped.dinOf h hj hji]
      · rw [hbyte j hj, if_neg fun e => hji e.1]
        exact hl.mapped.byte h hj (.inl fun e => hji e.1)
      · rw [hbyte i hi, if_pos ⟨rfl, by omega⟩, hdisk _ (Nat.mod_lt _ (by omega)),
          if_pos (by omega)]
        congr 1
        omega
      · rw [hbyte i hi]
        split
        · rename_i e
          -- another byte of the block: the file had the block
          have hlt : q.blkno < (s.din i).blocks := by omega
          have hold : s.bmap i q.blkno ≠ 0 := hw _ hk hlt
          have hbs : s.bmap i (p / 4096) = b := by rw [e.2, hl.mapped.old hold]
          rw [hdisk _ (Nat.mod_lt _ (by omega)), if_neg (by omega), Sfs.byte, hbs,
            if_pos ⟨by omega, hl.mapped.ne_zero⟩, ← hbs, e.2, hl.mapped.disk_data h hi hk hold]
        · rename_i e
          exact hl.mapped.byte h hi (.inl e)
      · refine hl.blocks.trans ?_
        rw [if_pos (by omega)]
        omega
    · exact absurd hf hd
  · exact absurd hf hd
  · omega

theorem Written.refl (h : Acct I E s) (hw : WholeFile s i) (a : ℕ) (buf : Bytes) (alen : ℕ) :
    Written I E s s i a a buf alen :=
  ⟨h, hw, rfl, rfl, rfl, fun _ _ _ => ⟨rfl, fun _ => rfl⟩, fun p h1 h2 => by omega,
    fun _ _ _ => rfl, by simp⟩

theorem Written.trans {u : Sfs} {a m c alen : ℕ} {buf : Bytes}
    (h : Written I E s t i a m buf alen) (h' : Written I E t u i m c buf (alen + (m - a)))
    (ham : a < m) (hmc : m ≤ c) : Written I E s u i a c buf alen where
  acct := h'.acct
  whole := h'.whole
  cached := h'.cached.trans h.cached
  size := h'.size.trans h.size
  type := h'.type.trans h.type
  others j hj hji :=
    ⟨(h'.others j hj hji).1.trans (h.others j hj hji).1, fun p =>
      ((h'.others j hj hji).2 p).trans ((h.others j hj hji).2 p)⟩
  inside p hp1 hp2 := by
    have hb := h.blocks
    rw [if_pos ham] at hb
    by_cases hpm : p < m
    · rw [h'.outside p (.inl hpm) (by omega), h.inside p hp1 hpm]
    · rw [h'.inside p (by omega) hp2]
      congr 1
      omega
  outside p hp hb := by
    have hb' : (s.din i).blocks ≤ (t.din i).blocks := by
      rw [h.blocks]
      exact le_max_left _ _
    rw [h'.outside p (by omega) (lt_of_lt_of_le hb (Nat.mul_le_mul_right _ hb')),
      h.outside p (by omega) hb]
  blocks := by
    rw [h'.blocks, h.blocks, if_pos ham, if_pos (lt_of_lt_of_le ham hmc)]
    split <;> omega

/-- The free blocks that a write from `a` to `c` has taken: those that its entries needed. -/
def Taken (s t : Sfs) (i a c : ℕ) : Prop :=
  ∀ n, (c + 4095) / 4096 ≤ n → n ≤ 1036 →
    s.need i (a / 4096) n + t.unusedBlocks = t.need i ((c + 4095) / 4096) n + s.unusedBlocks

/-- **The loop of a write.** -/
theorem ioLoop_write (hd : ¬dev.Faulty) (buf : Bytes) : ∀ {ps : List Piece} {a c : ℕ} (alen : ℕ)
    {s : Sfs},
    Tiles a ps c → c ≤ 1036 * 4096 → Acct I E s → WholeFile s i → s.cached i = true →
    (ps ≠ [] → a / 4096 ≤ (s.din i).blocks ∧
      s.need i (a / 4096) ((c + 4095) / 4096) ≤ s.unusedBlocks) →
    ∃ t, ioLoop dev i true ps buf alen s = some (.ok ⟨none, alen + (c - a), buf⟩, t) ∧
      Written I E s t i a c buf alen ∧ (ps = [] → t = s) ∧ (ps ≠ [] → Taken s t i a c)
  | [], a, c, alen, s, ht, _, h, hw, _, _ => by
    cases (ht : a = c)
    exact ⟨s, Code.pure_eq_some.2 ⟨by rw [Nat.sub_self, Nat.add_zero], rfl⟩, .refl h hw _ _ _,
      fun _ => rfl, fun hne => absurd rfl hne⟩
  | q :: ps, a, c, alen, s, ht, hcap, h, hw, hc, hne => by
    have hi := h.cached i hc
    obtain ⟨⟨hblk, hoff, hpos, hfit, hwh⟩, hnext, ht⟩ := ht
    have hle := ht.le
    have hk : q.blkno < 1036 := by omega
    obtain ⟨hkb, hneed⟩ := hne (by simp)
    rw [← hblk] at hkb hneed
    have hcost : s.cost i q.blkno ≤ s.unusedBlocks := (cost_le_need (by omega)).trans hneed
    obtain ⟨b, v, t, h₁, h₂, hl, hut, hmap, hdin, hwr⟩ := writePiece hd h hw hc
      buf alen ⟨hblk, hoff, hpos, hfit, hwh⟩ hk hkb hcost
    have hct : t.cached i = true := by rw [hwr.cached, hc]
    have hcnt := hl.count
    -- what the entry has taken, and what the others need
    have htake : ∀ n, q.blkno < n → n ≤ 1036 →
        s.need i q.blkno n + t.unusedBlocks = t.need i (q.blkno + 1) n + s.unusedBlocks :=
      fun n hlt hn => by
        have hneed' := hl.need hc hi hlt hn
        have hnt : t.need i (q.blkno + 1) n = v.need i (q.blkno + 1) n :=
          need_congr hdin fun k' hk' => hmap k' (by omega)
        rw [hnt, hut]
        omega
    have hrest : ps ≠ [] → (a + q.size) / 4096 ≤ (t.din i).blocks ∧
        t.need i ((a + q.size) / 4096) ((c + 4095) / 4096) ≤ t.unusedBlocks := fun hps => by
      have hnx := hnext hps
      have hdiv : (a + q.size) / 4096 = q.blkno + 1 := by omega
      have htake' := htake ((c + 4095) / 4096) (by omega) (by omega)
      have hb : (t.din i).blocks = (v.din i).blocks := by
        rw [← Acct.dinOf_of_cached hct, hdin, Acct.dinOf_of_cached (by rw [hl.mapped.cached, hc])]
      have hb' := hl.blocks
      rw [hdiv, hb, hb']
      omega
    obtain ⟨u, h₃, hwu, hnil, hcons⟩ := ioLoop_write hd buf (alen + q.size) ht hcap hwr.acct
      hwr.whole hct hrest
    refine ⟨u, ?_, hwr.trans ?_ (by omega) hle, nofun, fun _ n hn hn' => ?_⟩
    · rw [ioLoop, Code.attempt_bind_eq_some]
      refine ⟨_, v, h₁, ?_⟩
      rw [Code.attempt_bind_eq_some]
      refine ⟨_, t, h₂, ?_⟩
      rw [show alen + (c - a) = alen + q.size + (c - (a + q.size)) by omega]
      exact h₃
    · rwa [Nat.add_sub_cancel_left]
    · have htake' := htake n (by omega) hn'
      rw [← hblk]
      by_cases hps : ps = []
      · rw [hnil hps]
        have hc' : a + q.size = c := by
          subst hps
          exact ht
        rw [show (c + 4095) / 4096 = q.blkno + 1 by omega]
        exact htake'
      · have hrec := hcons hps n hn hn'
        have hnx := hnext hps
        rw [show (a + q.size) / 4096 = q.blkno + 1 by omega] at hrec
        omega

/-! ## The call -/

theorem bmod_endpos {a b : ℕ} (h : a + b < 2 ^ 63) :
    Int.bmod ((a : ℤ) + (b : ℤ)) (2 ^ 64) = ((a + b : ℕ) : ℤ) := by
  rw [Int.bmod_def]
  omega

theorem getElem?_contents (hp : p < (s.dinOf i).size) : (s.contents i)[p]? = some (s.byte i p) := by
  rw [Sfs.contents, List.getElem?_map, List.getElem?_range hp]
  rfl

theorem getElem?_contents_none (hp : (s.dinOf i).size ≤ p) : (s.contents i)[p]? = none := by
  rw [List.getElem?_eq_none_iff, Sfs.contents, List.length_map, List.length_range]
  exact hp

theorem length_contents : (s.contents i).length = (s.dinOf i).size := by simp [Sfs.contents]

/-- A regular file in memory whose block map is consistent. -/
structure RegularFile (s : Sfs) (i : ℕ) : Prop where
  cached : s.cached i = true
  type : (s.din i).type = sfsTypeFile
  blocks : (s.din i).blocks = ((s.din i).size + 4095) / 4096
  whole : WholeFile s i

variable {offset len : ℕ} {buf : Bytes}

/-- The checks of `sfs_io_nolock` accept a range in the block map. -/
theorem ioNolock_checks (hf : RegularFile s i) (hcap : offset + len ≤ 1036 * 4096)
    (hlen : 0 < len) {write : Bool} {r : Except Errno IoResult}
    (hr : (if write = false then
        if (s.din i).size ≤ offset then (pure ⟨none, 0, buf⟩ : K IoResult)
        else ioLoop dev i write (ioPieces offset (min (offset + len) (s.din i).size)) buf 0
      else do
        let out ← ioLoop dev i write (ioPieces offset (offset + len)) buf 0
        let s ← Code.get
        if (s.din i).size < offset + out.alen then do
          Code.modify fun s => s.setDin i fun din => { din with size := offset + out.alen }
          pure out
        else pure out) s = some (r, t)) :
    ioNolock dev i buf offset len write s = some (r, t) := by
  have hmax : sfsMaxFileSize = 134217728 := by decide
  rw [ioNolock, Code.get_bind_eq_some, Code.assert_bind_eq_some]
  refine ⟨by rw [hf.type]; decide, ?_⟩
  dsimp only
  have he0 : (if (sfsMaxFileSize : ℤ) < ((offset + len : ℕ) : ℤ) then (sfsMaxFileSize : ℤ)
      else ((offset + len : ℕ) : ℤ)) = ((offset + len : ℕ) : ℤ) := if_neg (by rw [hmax]; omega)
  rw [bmod_endpos (by omega), if_neg (by rw [hmax]; omega), if_neg (by omega), he0]
  cases write with
  | false =>
    rw [if_pos rfl] at hr ⊢
    by_cases hs : (s.din i).size ≤ offset
    · rw [if_pos hs] at hr
      rwa [if_pos (by omega)]
    · rw [if_neg hs] at hr
      rw [if_neg (by omega)]
      have he : (if ((s.din i).size : ℤ) < ((offset + len : ℕ) : ℤ) then ((s.din i).size : ℤ)
          else ((offset + len : ℕ) : ℤ)).toNat = min (offset + len) (s.din i).size := by
        split <;> omega
      rwa [he]
  | true =>
    rw [if_neg (by simp)] at hr ⊢
    exact hr

/-- The size in memory is written: the bytes are as before. -/
theorem byte_setDin_size (hc : s.cached i = true) (m : ℕ) :
    (s.setDin i fun din => { din with size := m }).byte j p = s.byte j p := by
  unfold Sfs.byte
  rw [Sfs.setDin, bmap_setSin hc rfl rfl]
  rfl

/-- What a write makes of the contents of the file. -/
theorem Written.contents (h : Written I E s v i offset (offset + len) buf 0)
    (hf : RegularFile s i) (ho : offset ≤ (s.din i).size) (hp : ∀ p, t.byte i p = v.byte i p)
    (hsz : (t.dinOf i).size = max (s.din i).size (offset + len)) :
    t.contents i = overwrite (s.contents i) offset ((List.range len).map buf) := by
  have hds := Acct.dinOf_of_cached hf.cached
  have hb := hf.blocks
  refine List.ext_getElem? fun p => ?_
  rw [getElem?_overwrite (by rw [length_contents, hds]; exact ho), List.length_map,
    List.length_range]
  by_cases hin : offset ≤ p ∧ p < offset + len
  · rw [if_pos hin, getElem?_contents (by rw [hsz]; omega), hp, h.inside p hin.1 hin.2,
      List.getElem?_map, List.getElem?_range (by omega), Option.map_some, Nat.zero_add]
  · rw [if_neg hin]
    by_cases hlt : p < (s.din i).size
    · rw [getElem?_contents (by rw [hsz]; omega), hp, h.outside p (by omega) (by omega),
        getElem?_contents (by rwa [hds])]
    · rw [getElem?_contents_none (by rw [hsz]; omega), getElem?_contents_none (by rw [hds]; omega)]

/-- `len` bytes of `buf` have been written to file `i` at `offset`, and no other file has changed.
    The blocks that the bytes behind them need are still there. -/
structure Wrote (I : Finset ℕ) (E : Set ℕ) (s t : Sfs) (i offset len : ℕ) (buf : Bytes) : Prop where
  acct : Acct I E t
  file : RegularFile t i
  contents : t.contents i = overwrite (s.contents i) offset ((List.range len).map buf)
  size : (t.din i).size = max (s.din i).size (offset + len)
  others : ∀ j ∈ I, j ≠ i → t.contents j = s.contents j
  need : ∀ n, (offset + len + 4095) / 4096 ≤ n → n ≤ 1036 →
    s.need i (offset / 4096) n ≤ s.unusedBlocks →
    t.need i ((offset + len) / 4096) n ≤ t.unusedBlocks

theorem Wrote.refl (h : Acct I E s) (hf : RegularFile s i) (ho : offset ≤ (s.din i).size)
    (buf : Bytes) : Wrote I E s s i offset 0 buf :=
  ⟨h, hf, by simp [overwrite], by omega, fun _ _ _ => rfl, fun _ _ _ hn => hn⟩

/-- The state with the new size. -/
theorem ioNolock_grow (hf : RegularFile s i) (hcap : offset + len ≤ 1036 * 4096) (hlen : 0 < len)
    (h₁ : ioLoop dev i true (ioPieces offset (offset + len)) buf 0 s = some
      (.ok ⟨none, len, buf⟩, v))
    (hcv : v.cached i = true) (hsize : (v.din i).size = (s.din i).size) :
    ∃ t, ioNolock dev i buf offset len true s = some (.ok ⟨none, len, buf⟩, t) ∧
      (t.din i).size = max (s.din i).size (offset + len) ∧
      (t.din i).blocks = (v.din i).blocks ∧ (t.din i).type = (v.din i).type ∧
      (t.dinOf i).indirect = (v.dinOf i).indirect ∧ t.unusedBlocks = v.unusedBlocks ∧
      t.cached = v.cached ∧ (∀ j p, t.byte j p = v.byte j p) ∧
      (∀ k, t.bmap i k = v.bmap i k) ∧ ∀ j, j ≠ i → t.dinOf j = v.dinOf j := by
  by_cases hgrow : (v.din i).size < offset + len
  · refine ⟨_, ioNolock_checks hf hcap hlen (t := v.setDin i fun din =>
      { din with size := offset + len }) ?_, ?_, ?_, ?_, ?_, rfl, rfl,
      fun j p => byte_setDin_size hcv _, fun k => bmap_setSin hcv rfl rfl, fun j hj => ?_⟩
    · rw [if_neg (by simp), Code.bind_eq_some]
      refine .inl ⟨_, v, h₁, ?_⟩
      rw [Code.get_bind_eq_some, if_pos hgrow, Code.modify_bind_eq_some]
      exact Code.pure_eq_some.2 ⟨rfl, rfl⟩
    · rw [Sfs.din_setDin, if_pos rfl]
      dsimp only
      omega
    · rw [Sfs.din_setDin, if_pos rfl]
    · rw [Sfs.din_setDin, if_pos rfl]
    · rw [Sfs.setDin, Acct.dinOf_setSin hcv, if_pos rfl, Acct.dinOf_of_cached hcv]
      rfl
    · rw [Sfs.setDin, Acct.dinOf_setSin hcv, if_neg hj]
  · refine
      ⟨_, ioNolock_checks hf hcap hlen (t := v) ?_, ?_, rfl, rfl, rfl, rfl, rfl, fun _ _ => rfl,
      fun _ => rfl, fun _ _ => rfl⟩
    · rw [if_neg (by simp), Code.bind_eq_some]
      refine .inl ⟨_, v, h₁, ?_⟩
      rw [Code.get_bind_eq_some, if_neg hgrow]
      exact Code.pure_eq_some.2 ⟨rfl, rfl⟩
    · rw [hsize] at hgrow ⊢
      omega

/-- **A write.** -/
theorem io_write (hd : ¬dev.Faulty) (h : Acct I E s) (hf : RegularFile s i)
    (ho : offset ≤ (s.din i).size) (hcap : offset + len ≤ 1036 * 4096)
    (hs : s.need i (offset / 4096) ((offset + len + 4095) / 4096) ≤ s.unusedBlocks) :
    ∃ t, ioNolock dev i buf offset len true s = some (.ok ⟨none, len, buf⟩, t) ∧
      Wrote I E s t i offset len buf := by
  have hds := Acct.dinOf_of_cached hf.cached
  have hb := hf.blocks
  obtain rfl | hlen := Nat.eq_zero_or_pos len
  · refine ⟨s, ?_, .refl h hf ho buf⟩
    rw [ioNolock, Code.get_bind_eq_some, Code.assert_bind_eq_some]
    refine ⟨by rw [hf.type]; decide, ?_⟩
    have hmax : sfsMaxFileSize = 134217728 := by decide
    dsimp only
    rw [bmod_endpos (by omega), if_neg (by rw [hmax]; omega), if_pos (by omega)]
    exact Code.pure_eq_some.2 ⟨rfl, rfl⟩
  · have htiles : Tiles offset (ioPieces offset (offset + len)) (offset + len) :=
      ioPieces_tiles (by omega)
    obtain ⟨v, h₁, hw, -, htaken⟩ := ioLoop_write hd buf 0 htiles hcap h hf.whole
      hf.cached fun _ => ⟨by omega, hs⟩
    rw [Nat.add_sub_cancel_left, Nat.zero_add] at h₁
    have hcv : v.cached i = true := by rw [hw.cached, hf.cached]
    have hbv := hw.blocks
    rw [if_pos (by omega)] at hbv
    obtain ⟨t, hr, hsz, hbt, htt, hit, hut, hct, hbyte, hmap, hoth⟩ :=
      ioNolock_grow hf hcap hlen h₁ hcv hw.size
    have hct' : t.cached i = true := by rw [hct, hcv]
    have hclears : dev.Clears := fun n => by
      by_contra hn
      exact hd ⟨n, _, hn⟩
    obtain ⟨E', -, hE, hat⟩ := (ioNolock_kept h hf.cached hr).1.acct
    rw [hE hclears] at hat
    have hft : RegularFile t i := by
      refine ⟨hct', ?_, ?_, fun k hk hkb => ?_⟩
      · rw [htt, hw.type, hf.type]
      · rw [hbt, hbv, hsz, hb]
        omega
      · rw [hmap]
        exact hw.whole k hk (hbt ▸ hkb)
    refine ⟨t, hr, hat, hft, hw.contents hf ho (hbyte i) ?_, hsz, fun j hj hji => ?_,
      fun n hn hn' hneed => ?_⟩
    · rw [Acct.dinOf_of_cached hct', hsz]
    · rw [Sfs.contents, Sfs.contents, hoth j hji, (hw.others j hj hji).1]
      exact List.map_congr_left fun p _ => (hbyte j p).trans ((hw.others j hj hji).2 p)
    · have hne : ioPieces offset (offset + len) ≠ [] := fun e => by
        rw [e] at htiles
        have : offset = offset + len := htiles
        omega
      have htake := htaken hne n hn hn'
      have hnv : ∀ k, t.need i k n = v.need i k n := fun k =>
        need_congr_indirect hit fun k' _ => hmap k'
      rw [hnv, hut]
      by_cases hal : (offset + len) % 4096 = 0
      · rw [show (offset + len) / 4096 = (offset + len + 4095) / 4096 by omega]
        omega
      · have hlast : v.need i ((offset + len) / 4096) n ≤ v.need i ((offset + len) / 4096 + 1) n :=
          need_le_succ hcv (hw.whole _ (by omega) (by omega))
        rw [show (offset + len) / 4096 + 1 = (offset + len + 4095) / 4096 by omega] at hlast
        omega

/-- **A read.** -/
theorem io_read (hd : ¬dev.Faulty) (h : Acct I E s) (hf : RegularFile s i)
    (ho : offset ≤ (s.din i).size) (hcap : offset + len ≤ 1036 * 4096) :
    ∃ n buf', ioNolock dev i buf offset len false s =
        some (.ok ⟨none, min (offset + len) (s.din i).size - offset, buf'⟩, s.wait n) ∧
      (List.range (min (offset + len) (s.din i).size - offset)).map buf' =
        ((s.contents i).drop offset).take len := by
  have hds := Acct.dinOf_of_cached hf.cached
  have hb := hf.blocks
  have hlenc : (((s.contents i).drop offset).take len).length =
      min (offset + len) (s.din i).size - offset := by
    rw [List.length_take, List.length_drop, length_contents, hds]
    omega
  by_cases hnil : len = 0 ∨ (s.din i).size ≤ offset
  · have h0 : min (offset + len) (s.din i).size - offset = 0 := by omega
    rw [h0] at hlenc ⊢
    refine ⟨0, buf, ?_, ?_⟩
    · obtain rfl | hlen := Nat.eq_zero_or_pos len
      · rw [ioNolock, Code.get_bind_eq_some, Code.assert_bind_eq_some]
        refine ⟨by rw [hf.type]; decide, ?_⟩
        have hmax : sfsMaxFileSize = 134217728 := by decide
        dsimp only
        rw [bmod_endpos (by omega), if_neg (by rw [hmax]; omega), if_pos (by omega)]
        exact Code.pure_eq_some.2 ⟨rfl, rfl⟩
      · refine ioNolock_checks hf hcap hlen ?_
        rw [if_pos rfl, if_pos (hnil.resolve_left (by omega))]
        exact Code.pure_eq_some.2 ⟨rfl, rfl⟩
    · rw [List.range_zero, List.map_nil]
      exact (List.eq_nil_of_length_eq_zero hlenc).symm
  · simp only [not_or, not_le] at hnil
    obtain ⟨n, out, h₁, hout⟩ : ∃ n out, ioLoop dev i false
        (ioPieces offset (min (offset + len) (s.din i).size)) buf 0 s = some (.ok out, s.wait n) ∧
        Delivered dev s i offset (min (offset + len) (s.din i).size) 0 buf out :=
      ioLoop_reads (ioPieces_tiles (by omega)) (by omega) (by omega) h hf.whole hf.cached
    have hret : out.ret = none := Option.eq_none_iff_forall_ne_some.2 fun e he =>
      hd (hout.error e he)
    have halen : out.alen = min (offset + len) (s.din i).size - offset := by
      rw [hout.all hret, Nat.zero_add]
    refine ⟨n, out.buf, ioNolock_checks hf hcap (by omega) ?_, ?_⟩
    · rw [if_pos rfl, if_neg (by omega), ← halen, ← hret]
      exact h₁
    · refine List.ext_getElem? fun q => ?_
      by_cases hq : q < min (offset + len) (s.din i).size - offset
      · rw [List.getElem?_map, List.getElem?_range hq, Option.map_some, hout.bytes,
          if_pos ⟨Nat.zero_le _, by omega⟩, Nat.sub_zero, List.getElem?_take_of_lt (by omega),
          List.getElem?_drop, getElem?_contents (by rw [hds]; omega)]
      · rw [List.getElem?_eq_none (by simp; omega), List.getElem?_eq_none (by rw [hlenc]; omega)]

/-- **`sfs_io_nolock` refines an array of bytes.**  A write for which there are free blocks enough
    overwrites the contents of its file and leaves those of the others; a read returns the bytes
    asked for and changes nothing. -/
theorem io_refines (hd : ¬dev.Faulty) (h : Acct I E s) (hf : RegularFile s i)
    (ho : offset ≤ (s.din i).size) (hcap : offset + len ≤ 1036 * 4096) (buf : Bytes) :
    (s.need i (offset / 4096) ((offset + len + 4095) / 4096) ≤ s.unusedBlocks →
      ∃ t, ioNolock dev i buf offset len true s = some (.ok ⟨none, len, buf⟩, t) ∧
        t.contents i = overwrite (s.contents i) offset ((List.range len).map buf) ∧
        (t.din i).size = max (s.din i).size (offset + len) ∧ RegularFile t i ∧
        ∀ j ∈ I, j ≠ i → t.contents j = s.contents j) ∧
    ∃ n buf', ioNolock dev i buf offset len false s =
        some (.ok ⟨none, min (offset + len) (s.din i).size - offset, buf'⟩, s.wait n) ∧
      (List.range (min (offset + len) (s.din i).size - offset)).map buf' =
        ((s.contents i).drop offset).take len :=
  ⟨fun hs => by
    obtain ⟨t, hr, hw⟩ := io_write hd h hf ho hcap hs
    exact ⟨t, hr, hw.contents, hw.size, hw.file, hw.others⟩, io_read hd h hf ho hcap⟩

/-- Two bytes are written to an empty file. -/
theorem io_refines_two_bytes : ∃ s t, RegularFile s 3 ∧
    ioNolock soundDevice 3 (fun _ => 7) 0 2 true s = some (.ok ⟨none, 2, fun _ => 7⟩, t) ∧
    t.contents 3 = [7, 7] := by
  have hload : (((blockMachine soundDevice {1, 3}).run emptyFileImage [.loadInode 3]).bind fun s =>
      if ((s.cached 3 = true ∧ (s.din 3).type = sfsTypeFile) ∧ (s.din 3).size = 0) ∧
        (s.din 3).blocks = 0 ∧ s.need 3 0 1 ≤ s.unusedBlocks then some () else none) = some () := by
    decide +kernel
  obtain ⟨s, hs, hif⟩ := Option.bind_eq_some_iff.1 hload
  split at hif
  · rename_i hc
    obtain ⟨⟨⟨hcached, htype⟩, hsize⟩, hblocks, hneed⟩ := hc
    have hr := (Machine.Reach.init (M := blockMachine soundDevice {1, 3})
      mounted_emptyFileImage).run hs
    have hf : RegularFile s 3 :=
      ⟨hcached, htype, by rw [hblocks, hsize], fun k _ hk => absurd hk (by omega)⟩
    have hd : ¬soundDevice.Faulty := fun ⟨_, _, h⟩ => h rfl
    have hneed : s.need 3 (0 / 4096) ((0 + 2 + 4095) / 4096) ≤ s.unusedBlocks := hneed
    obtain ⟨t, ht, hct, -⟩ := (io_refines hd (reach_acct (fun _ => rfl) hr) hf (Nat.zero_le _)
      (show 0 + 2 ≤ 1036 * 4096 by decide) (fun _ => 7)).1 hneed
    refine ⟨s, t, hf, ht, hct.trans ?_⟩
    rw [Sfs.contents, Acct.dinOf_of_cached hcached, hsize]
    rfl
  · cases hif

end Ucore
