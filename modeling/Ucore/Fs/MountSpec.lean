/-
  What `sfs_do_mount` has done when it returns.

  * `Checked`, `Loads`: the requests that are made are not refused, and the superblock passes;
  * `doMount_unchecked`, `doMount_unread`: it returns an error, with the memory released;
  * `doMount_no_bits`, `doMount_miscounted`: it panics;
  * `doMount_ok`: the file system has the free map of the device.
-/
import Ucore.Fs.Mount
import Ucore.Fs.SfsSpec

namespace Ucore

/-! ## Errors that release what has been allocated -/

/-- `x` returns an error, and `H` is what is allocated then. -/
def Refuses {α : Type} (x : MountCode α) (s : MountState) (H : List Chunk) : Prop :=
  ∃ e t, x s = some (.error e, t) ∧ t.heap = H

section
variable {d : BlockDev} {α β : Type} {x : MountCode α} {f : α → MountCode β} {s t u : MountState}
  {H : List Chunk} {c : Chunk} {e : Errno} {a : α}

theorem Refuses.throw : Refuses (Code.throw e : MountCode α) s s.heap := ⟨e, s, rfl, rfl⟩

theorem Refuses.bind (h : Refuses x s H) : Refuses (x >>= f) s H := by
  obtain ⟨e, t, h, ht⟩ := h
  exact ⟨e, t, Code.bind_error h, ht⟩

theorem Refuses.bind_ok (h : x s = some (.ok a, u)) (hf : Refuses (f a) u H) :
    Refuses (x >>= f) s H := by
  obtain ⟨e, t, hf, ht⟩ := hf
  exact ⟨e, t, (Code.bind_ok h).trans hf, ht⟩

theorem cleanup_ok (h : x s = some (.ok a, t)) : cleanup c x s = some (.ok a, t) :=
  (Code.attempt_bind h).trans rfl

theorem cleanup_none (h : x s = none) : cleanup c x s = none :=
  Code.bind_none (by rw [Code.attempt, h]; rfl)

/-- A label takes one block back. -/
theorem Refuses.cleanup (h : Refuses x s (c :: H)) : Refuses (Ucore.cleanup c x) s H := by
  obtain ⟨e, t, h, ht⟩ := h
  refine ⟨e, { t with heap := t.heap.erase c }, (Code.attempt_bind h).trans rfl, ?_⟩
  change t.heap.erase c = H
  rw [ht, List.erase_cons_head]

theorem cleanup_congr {y : MountCode α} (h : x s = y u) :
    Ucore.cleanup c x s = Ucore.cleanup c y u :=
  Code.bind_congr_run (by rw [Code.attempt, Code.attempt, h])

theorem cleanup_bind (h : x s = some (.ok a, u)) :
    Ucore.cleanup c (x >>= f) s = Ucore.cleanup c (f a) u := cleanup_congr (Code.bind_ok h)

theorem cleanupFreemap_ok (h : x s = some (.ok a, t)) : cleanupFreemap x s = some (.ok a, t) :=
  (Code.attempt_bind h).trans rfl

theorem Refuses.cleanupFreemap (h : Refuses x s (.map :: .bitmap :: H)) :
    Refuses (Ucore.cleanupFreemap x) s H := by
  obtain ⟨e, t, h, ht⟩ := h
  refine ⟨e, { t with heap := (t.heap.erase .map).erase .bitmap },
    (Code.attempt_bind h).trans rfl, ?_⟩
  change (t.heap.erase .map).erase .bitmap = H
  rw [ht, List.erase_cons_head, List.erase_cons_head]

/-! ## The superblock -/

/-- The superblock is read again as it was written, up to the widths of the fields. -/
theorem SfsSuper.ofBytes_bytes (super : SfsSuper) :
    SfsSuper.ofBytes (Bytes.copy (fun _ => 0) 0 super.bytes 44) =
      { magic := super.magic % 2 ^ 32
        blocks := super.blocks % 2 ^ 32
        unusedBlocks := super.unusedBlocks % 2 ^ 32
        info := super.info } := by
  have hw : ∀ w o, o + w ≤ 44 → (Bytes.copy (fun _ => 0) 0 super.bytes 44).word w o =
      super.bytes.word w o := fun w o ho => by
    rw [Bytes.word_copy (by omega) (by omega)]
    rfl
  ext1
  · exact (hw 4 0 (by omega)).trans (Bytes.word_fields (w := 4) super.magic _ [])
  · exact (hw 4 4 (by omega)).trans
      (Bytes.word_fields (w := 4) super.blocks _ [(4, super.magic)])
  · exact (hw 4 8 (by omega)).trans
      (Bytes.word_fields (w := 4) super.unusedBlocks _ [(4, super.magic), (4, super.blocks)])
  · funext k
    have hk := k.2
    have hf := Bytes.word_fields_array (w := 1) (List.ofFn fun k => (super.info k).toNat)
      [(4, super.magic), (4, super.blocks), (4, super.unusedBlocks)] [] (k := k)
      (by rw [List.length_ofFn]; exact k.2)
    rw [List.getElem_ofFn, List.append_nil] at hf
    change Bytes.word 1 super.bytes (12 + 1 * k) = (super.info k).toNat % 256 ^ 1 at hf
    rw [Nat.one_mul, ← hw 1 (12 + k) (by omega)] at hf
    have hb :
        ((Bytes.copy (fun _ => 0) 0 super.bytes 44) (12 + k)).toNat = (super.info k).toNat := by
      have hlt := (super.info k).toNat_lt
      simp only [Bytes.word] at hf
      omega
    exact UInt8.toNat_inj.1 hb

/-- The superblock that is read has the bytes that it was read from. -/
theorem SfsSuper.bytes_ofBytes (m : Bytes) {q : ℕ} (hq : q < 44) :
    (SfsSuper.ofBytes m).bytes q = m q := by
  have hword : ∀ {o v : ℕ}, (SfsSuper.ofBytes m).bytes.word 4 o = v % 2 ^ 32 → v = m.word 4 o →
      ∀ j < 4, (SfsSuper.ofBytes m).bytes (o + j) = m (o + j) := fun {o v} h hv j hj => by
    refine Bytes.eq_of_word ?_ hj
    rw [h, hv]
    exact Nat.mod_eq_of_lt (Bytes.word_lt 4 o)
  have h0 : ∀ j < 4, (SfsSuper.ofBytes m).bytes (0 + j) = m (0 + j) :=
    hword (Bytes.word_fields (w := 4) (SfsSuper.ofBytes m).magic _ []) rfl
  have h4 : ∀ j < 4, (SfsSuper.ofBytes m).bytes (4 + j) = m (4 + j) :=
    hword (Bytes.word_fields (w := 4) (SfsSuper.ofBytes m).blocks _
      [(4, (SfsSuper.ofBytes m).magic)]) rfl
  have h8 : ∀ j < 4, (SfsSuper.ofBytes m).bytes (8 + j) = m (8 + j) :=
    hword (Bytes.word_fields (w := 4) (SfsSuper.ofBytes m).unusedBlocks _
      [(4, (SfsSuper.ofBytes m).magic), (4, (SfsSuper.ofBytes m).blocks)]) rfl
  by_cases h12 : q < 12
  · obtain h | h | h : q < 4 ∨ (4 ≤ q ∧ q < 8) ∨ 8 ≤ q := by omega
    · simpa using h0 q h
    · simpa [show 4 + (q - 4) = q by omega] using h4 (q - 4) (by omega)
    · simpa [show 8 + (q - 8) = q by omega] using h8 (q - 8) (by omega)
  · have hf := Bytes.word_fields_array (w := 1)
      (List.ofFn fun k => ((SfsSuper.ofBytes m).info k).toNat)
      [(4, (SfsSuper.ofBytes m).magic), (4, (SfsSuper.ofBytes m).blocks),
        (4, (SfsSuper.ofBytes m).unusedBlocks)] [] (k := q - 12)
      (by rw [List.length_ofFn]; omega)
    rw [List.getElem_ofFn, List.append_nil] at hf
    change Bytes.word 1 (SfsSuper.ofBytes m).bytes (12 + 1 * (q - 12)) =
      (m (12 + (q - 12))).toNat % 256 ^ 1 at hf
    have hlt := (m (12 + (q - 12))).toNat_lt
    have hw : (SfsSuper.ofBytes m).bytes.word 1 (12 + (q - 12)) = m.word 1 (12 + (q - 12)) := by
      rw [Nat.one_mul] at hf
      rw [hf]
      simp only [Bytes.word]
      omega
    have := Bytes.eq_of_word (j := 0) hw (by omega)
    rwa [Nat.add_zero, show 12 + (q - 12) = q by omega] at this

/-! ## Requests -/

/-- `kmalloc` at time `t` gives memory. -/
def BlockDev.Mallocs (d : BlockDev) (t : ℕ) : Prop := d.faults.fault t .kmalloc = none

/-- The block is on the device, and is read at time `t`. -/
def BlockDev.Reads (d : BlockDev) (blkno t : ℕ) : Prop :=
  blkno < d.blocks ∧ d.faults.fault t .read = none

theorem makeRequest_run (req : Request) :
    makeRequest d req s = some (.ok (d.faults.fault s.time req), { s with time := s.time + 1 }) :=
  rfl

theorem kmallocFor_ok (h : d.Mallocs s.time) :
    kmallocFor d c s = some (.ok (), ⟨s.time + 1, c :: s.heap⟩) := by
  unfold kmallocFor
  rw [Code.bind_ok (makeRequest_run .kmalloc), show d.faults.fault s.time .kmalloc = none from h]
  rfl

theorem kmallocFor_refuses (h : ¬d.Mallocs s.time) : Refuses (kmallocFor d c) s s.heap := by
  obtain ⟨e, he⟩ := Option.ne_none_iff_exists'.1 h
  refine ⟨.noMem, { s with time := s.time + 1 }, ?_, rfl⟩
  unfold kmallocFor
  rw [Code.bind_ok (makeRequest_run .kmalloc), he]
  rfl

theorem initRead_blkno {b : ℕ} (hb : b < 2 ^ 20) : b * 4096 % 2 ^ 32 / 4096 = b := by omega

theorem initRead_ok {b : ℕ} (hb : b < 2 ^ 20) (h : d.Reads b s.time) :
    initRead d b s = some (.ok (d.data b), { s with time := s.time + 1 }) := by
  unfold initRead
  rw [initRead_blkno hb, if_neg (Nat.not_lt.2 h.1), Code.bind_ok (makeRequest_run .read), h.2]
  rfl

theorem initRead_refuses {b : ℕ} (hb : b < 2 ^ 20) (h : ¬d.Reads b s.time) :
    Refuses (initRead d b) s s.heap := by
  unfold initRead
  rw [initRead_blkno hb]
  dsimp only
  split
  · exact Refuses.throw
  · rename_i hlt
    obtain ⟨e, he⟩ := Option.ne_none_iff_exists'.1 fun hn => h ⟨by omega, hn⟩
    refine ⟨e, { s with time := s.time + 1 }, ?_, rfl⟩
    rw [Code.bind_ok (makeRequest_run .read), he]
    rfl

/-! ## The free map -/

/-- `n` blocks from `blkno` on are read, the first one at time `t`. -/
def BlockDev.ReadsAll (d : BlockDev) (blkno n t : ℕ) : Prop := ∀ k < n, d.Reads (blkno + k) (t + k)

/-- `n` blocks of the words have been read, from the `k`-th on. -/
def Bitmap.loadAll (bm : Bitmap) (data : ℕ → Bytes) (blkno k n : ℕ) : Bitmap :=
  { bm with map := fun ix =>
      if k ≤ ix / 1024 ∧ ix / 1024 < k + n then
        BitVec.ofNat 32 ((data (blkno + (ix / 1024 - k))).word 4 (4 * (ix % 1024)))
      else bm.map ix }

theorem Bitmap.loadAll_zero (bm : Bitmap) (data : ℕ → Bytes) (blkno k : ℕ) :
    bm.loadAll data blkno k 0 = bm := by
  unfold loadAll
  congr 1
  funext ix
  rw [if_neg (by omega)]

theorem Bitmap.loadAll_load (bm : Bitmap) (data : ℕ → Bytes) (blkno k n : ℕ) :
    (bm.load k (data blkno)).loadAll data (blkno + 1) (k + 1) n =
      bm.loadAll data blkno k (n + 1) := by
  unfold loadAll load
  congr 1
  funext ix
  dsimp only
  by_cases hk : ix / 1024 = k
  · rw [if_neg (by omega), if_pos hk, if_pos (by omega), hk, Nat.sub_self, Nat.add_zero]
  · rw [if_neg hk]
    by_cases hn : k + 1 ≤ ix / 1024 ∧ ix / 1024 < k + 1 + n
    · rw [if_pos hn, if_pos (by omega), show blkno + 1 + (ix / 1024 - (k + 1)) =
        blkno + (ix / 1024 - k) by omega]
    · rw [if_neg hn, if_neg (by omega)]

theorem initFreemapLoop_ok : ∀ {n b k : ℕ} {bm : Bitmap} {s : MountState}, b + n ≤ 2 ^ 20 →
    d.ReadsAll b n s.time → initFreemapLoop d n b k bm s =
      some (.ok (bm.loadAll d.data b k n), { s with time := s.time + n })
  | 0, b, k, bm, s, _, _ => by
    rw [Bitmap.loadAll_zero]
    rfl
  | n + 1, b, k, bm, s, hb, h => by
    have h0 := initRead_ok (d := d) (s := s) (b := b) (by omega) (h 0 (by omega))
    rw [initFreemapLoop, Code.bind_ok h0, initFreemapLoop_ok (by omega) fun j hj => ?_,
      Bitmap.loadAll_load]
    · change some (_, (⟨s.time + 1 + n, s.heap⟩ : MountState)) = _
      rw [show s.time + 1 + n = s.time + (n + 1) by omega]
    · have := h (j + 1) (by omega)
      rwa [show b + (j + 1) = b + 1 + j by omega,
        show s.time + (j + 1) = s.time + 1 + j by omega] at this

theorem initFreemapLoop_refuses : ∀ {n b k : ℕ} {bm : Bitmap} {s : MountState}, b + n ≤ 2 ^ 20 →
    ¬d.ReadsAll b n s.time → Refuses (initFreemapLoop d n b k bm) s s.heap
  | 0, b, k, bm, s, _, h => absurd (fun j hj => absurd hj (Nat.not_lt_zero j)) h
  | n + 1, b, k, bm, s, hb, h => by
    by_cases h0 : d.Reads b s.time
    · refine Refuses.bind_ok (initRead_ok (by omega) h0) ?_
      refine initFreemapLoop_refuses (s := { s with time := s.time + 1 }) (by omega) fun hn =>
        h fun j hj => ?_
      cases j with
      | zero => exact h0
      | succ j =>
        have := hn j (by omega)
        rwa [show b + 1 + j = b + (j + 1) by omega,
          show s.time + 1 + j = s.time + (j + 1) by omega] at this
    · exact (initRead_refuses (by omega) h0).bind

theorem countUnused_eq (bm : Bitmap) : ∀ {l : List ℕ} {n : ℕ}, (∀ i ∈ l, i < bm.nbits) →
    countUnused bm l n s = some (.ok (n + (l.filter bm.bit).length), s)
  | [], n, _ => rfl
  | i :: l, n, h => by
    have hi : readBitmap bm (bitmapTest i) s = some (.ok (bm.bit i), s) := by
      rw [readBitmap, (Bitmap.bitmapTest_eq_some (t := bm)).2 ⟨h i (by simp), rfl, rfl⟩]
      rfl
    rw [countUnused, Code.bind_ok hi, countUnused_eq bm fun j hj => h j (by simp [hj])]
    cases hb : bm.bit i
    · simp [hb]
    · simp [hb, Nat.add_assoc, Nat.add_comm]

/-- The loop of `sfs_do_mount` counts the free bits. -/
theorem countUnused_range (bm : Bitmap) :
    countUnused bm (List.range bm.nbits) 0 s = some (.ok bm.freeBits.card, s) := by
  rw [countUnused_eq bm fun i hi => List.mem_range.1 hi, Nat.zero_add]
  have hcard : ((List.range bm.nbits).filter bm.bit).length = bm.freeBits.card := by
    rw [← List.toFinset_card_of_nodup (List.nodup_range.filter _)]
    congr 1
    ext i
    simp [Bitmap.freeBits]
  rw [hcard]

/-! ## `sfs_do_mount` -/

namespace BlockDev

def super (d : BlockDev) : SfsSuper := .ofBytes (d.data sfsBlknSuper)

/-- What stands behind the superblock and the root directory, as a bitmap. -/
def freemap (d : BlockDev) : Bitmap :=
  (⟨d.super.freemapBits, d.super.freemapBits / 32, fun ix =>
    if ix < d.super.freemapBits / 32 then BitVec.allOnes 32 else 0⟩ : Bitmap).loadAll d.data
      sfsBlknFreemap 0 d.super.freemapBlocks

/-- From time `t` on there is memory up to the hash list, and the superblock is read and passes. -/
structure Checked (d : BlockDev) (t : ℕ) : Prop where
  blocksize : d.blocksize = 4096
  fs : d.Mallocs t
  sfsBuffer : d.Mallocs (t + 1)
  read : d.Reads sfsBlknSuper (t + 2)
  magic : d.super.magic = sfsMagic
  size : d.super.blocks ≤ d.blocks
  hashList : d.Mallocs (t + 3)

/-- There is memory for the bitmap, and its blocks are read. -/
structure Loads (d : BlockDev) (t : ℕ) : Prop where
  bitmap : d.Mallocs (t + 4)
  map : d.Mallocs (t + 5)
  freemap : d.ReadsAll sfsBlknFreemap d.super.freemapBlocks (t + 6)

end BlockDev

theorem SfsSuper.blocks_lt (m : Bytes) : (SfsSuper.ofBytes m).blocks < 2 ^ 32 := Bytes.word_lt 4 4

/-- The last 32767 numbers of blocks make no bits. -/
theorem freemapBits_eq_zero_iff (d : BlockDev) :
    d.super.freemapBits = 0 ↔ d.super.blocks = 0 ∨ 2 ^ 32 - 32768 < d.super.blocks := by
  have h : d.super.blocks < 2 ^ 32 := SfsSuper.blocks_lt _
  unfold SfsSuper.freemapBits
  omega

theorem freemapBits_of_ne_zero (h : d.super.freemapBits ≠ 0) :
    d.super.freemapBits = d.super.freemapBlocks * 32768 ∧ d.super.freemapBlocks ≤ 131071 ∧
      d.super.blocks ≤ d.super.freemapBits := by
  have hlt : d.super.blocks < 2 ^ 32 := SfsSuper.blocks_lt _
  have hn := mt (freemapBits_eq_zero_iff d).2 h
  unfold SfsSuper.freemapBits SfsSuper.freemapBlocks
  omega

theorem bitmapCreate_none : bitmapCreate d 0 s = none := rfl

theorem bitmapCreate_ok {n : ℕ} (h0 : n ≠ 0) (h32 : n % 32 = 0) (hb : d.Mallocs s.time)
    (hm : d.Mallocs (s.time + 1)) : bitmapCreate d n s =
      some (.ok ⟨n, n / 32, fun ix => if ix < n / 32 then BitVec.allOnes 32 else 0⟩,
        ⟨s.time + 2, .map :: .bitmap :: s.heap⟩) := by
  have hw : (n + 31) / 32 = n / 32 := by omega
  rw [bitmapCreate, Code.assert_bind ⟨h0, by omega⟩, Code.bind_ok (kmallocFor_ok hb), hw,
    Code.bind_ok (cleanup_ok (kmallocFor_ok hm)), if_pos (by omega)]
  rfl

theorem bitmapCreate_refuses {n : ℕ} (h0 : n ≠ 0)
    (h : ¬(d.Mallocs s.time ∧ d.Mallocs (s.time + 1))) :
    Refuses (bitmapCreate d n) s s.heap := by
  by_cases hb : d.Mallocs s.time
  · rw [bitmapCreate]
    refine Refuses.bind_ok (Code.assert_eq_some.2 ⟨⟨h0, by omega⟩, rfl, rfl⟩) ?_
    refine Refuses.bind_ok (kmallocFor_ok hb) ?_
    exact (Refuses.cleanup (kmallocFor_refuses fun hm => h ⟨hb, hm⟩)).bind
  · rw [bitmapCreate]
    refine Refuses.bind_ok (Code.assert_eq_some.2 ⟨⟨h0, by omega⟩, rfl, rfl⟩) ?_
    exact (kmallocFor_refuses hb).bind

theorem initFreemap_len {n : ℕ} (h : n ≤ 131071) : 4 * (n * 32768 / 32) = n * 4096 % 2 ^ 32 := by
  omega

/-- **An error before the bitmap is made** leaves nothing allocated. -/
theorem doMount_unchecked (h : ¬d.Checked s.time) : Refuses (doMount d) s s.heap := by
  unfold doMount
  split
  · exact Refuses.throw
  · rename_i hbs
    by_cases h0 : d.Mallocs s.time
    · refine Refuses.bind_ok (kmallocFor_ok h0) (Refuses.cleanup ?_)
      by_cases h1 : d.Mallocs (s.time + 1)
      · refine Refuses.bind_ok (kmallocFor_ok h1) (Refuses.cleanup ?_)
        by_cases h2 : d.Reads sfsBlknSuper (s.time + 2)
        · refine Refuses.bind_ok (initRead_ok (by decide) h2) ?_
          unfold mountSuper
          split
          · exact Refuses.throw
          · rename_i hmg
            split
            · exact Refuses.throw
            · rename_i hsz
              have h3 : ¬d.Mallocs (s.time + 3) := fun h3 =>
                h ⟨not_not.1 hbs, h0, h1, h2, not_not.1 hmg, not_lt.1 hsz, h3⟩
              exact (kmallocFor_refuses h3).bind
        · exact (initRead_refuses (by decide) h2).bind
      · exact (kmallocFor_refuses h1).bind
    · exact (kmallocFor_refuses h0).bind

theorem mountSuper_checked {super : SfsSuper} (hm : super.magic = sfsMagic)
    (hb : super.blocks ≤ d.blocks) (hh : d.Mallocs s.time) : mountSuper d super s =
      cleanup .hashList (bitmapCreate d super.freemapBits >>= fun freemap =>
        mountFreemap d super.endInfo freemap) ⟨s.time + 1, .hashList :: s.heap⟩ := by
  unfold mountSuper
  rw [if_neg (not_not.2 hm), if_neg (not_lt.2 hb), Code.bind_ok (kmallocFor_ok hh)]

/-- The superblock is read. -/
theorem superRead (h : d.Checked s.time) : (cleanup .sfsBuffer do
      let m ← initRead d sfsBlknSuper
      mountSuper d (SfsSuper.ofBytes m)) ⟨s.time + 2, .sfsBuffer :: .fs :: s.heap⟩ =
    cleanup .sfsBuffer (mountSuper d d.super) ⟨s.time + 3, .sfsBuffer :: .fs :: s.heap⟩ :=
  cleanup_bind (initRead_ok (by decide) h.read)

/-- It passes. -/
theorem superPasses (h : d.Checked s.time) :
    cleanup .sfsBuffer (mountSuper d d.super) ⟨s.time + 3, .sfsBuffer :: .fs :: s.heap⟩ =
      cleanup .sfsBuffer (cleanup .hashList (bitmapCreate d d.super.freemapBits >>=
        fun freemap => mountFreemap d d.super.endInfo freemap))
        ⟨s.time + 4, .hashList :: .sfsBuffer :: .fs :: s.heap⟩ :=
  cleanup_congr (mountSuper_checked h.magic h.size h.hashList)

/-- What `sfs_do_mount` does with the hash list. -/
theorem doMount_checked (h : d.Checked s.time) : doMount d s =
    cleanup .fs (cleanup .sfsBuffer (cleanup .hashList (bitmapCreate d d.super.freemapBits >>=
      fun freemap => mountFreemap d d.super.endInfo freemap)))
      ⟨s.time + 4, .hashList :: .sfsBuffer :: .fs :: s.heap⟩ := by
  unfold doMount
  rw [if_neg (not_not.2 h.blocksize), Code.bind_ok (kmallocFor_ok h.fs),
    cleanup_bind (kmallocFor_ok h.sfsBuffer)]
  exact cleanup_congr ((superRead h).trans (superPasses h))

/-- **A superblock without blocks**, or with too many, fails the assertion of `bitmap_create`. -/
theorem doMount_no_bits (h : d.Checked s.time) (hn : d.super.freemapBits = 0) :
    doMount d s = none := by
  rw [doMount_checked h, hn]
  exact cleanup_none (cleanup_none (cleanup_none (Code.bind_none bitmapCreate_none)))

/-- A block of the free map is not read. -/
theorem mountFreemap_refuses {bm : Bitmap} (hn : d.super.freemapBits ≠ 0)
    (hw : bm.nwords = d.super.freemapBits / 32)
    (hl : ¬d.ReadsAll sfsBlknFreemap d.super.freemapBlocks s.time)
    (hh : s.heap = .map :: .bitmap :: H) : Refuses (mountFreemap d d.super.endInfo bm) s H := by
  obtain ⟨hbits, hle, -⟩ := freemapBits_of_ne_zero hn
  unfold mountFreemap initFreemap
  refine (Refuses.cleanupFreemap ?_).bind
  refine Refuses.bind_ok (Code.assert_eq_some.2 ⟨?_, rfl, rfl⟩) ?_
  · change 4 * bm.nwords = d.super.freemapBlocks * 4096 % 2 ^ 32
    rw [hw, hbits]
    exact initFreemap_len hle
  · rw [← hh]
    refine initFreemapLoop_refuses ?_ hl
    change 2 + d.super.freemapBlocks ≤ _
    omega

/-- **An error behind that** leaves nothing allocated. -/
theorem doMount_unread (h : d.Checked s.time) (hn : d.super.freemapBits ≠ 0)
    (hl : ¬d.Loads s.time) : Refuses (doMount d) s s.heap := by
  obtain ⟨hbits, hle, -⟩ := freemapBits_of_ne_zero hn
  suffices hr : Refuses (bitmapCreate d d.super.freemapBits >>= fun freemap =>
      mountFreemap d d.super.endInfo freemap)
      ⟨s.time + 4, .hashList :: .sfsBuffer :: .fs :: s.heap⟩
      (.hashList :: .sfsBuffer :: .fs :: s.heap) by
    obtain ⟨e, t, hr, ht⟩ := hr.cleanup.cleanup.cleanup
    exact ⟨e, t, (doMount_checked h).trans hr, ht⟩
  by_cases hm : d.Mallocs (s.time + 4) ∧ d.Mallocs (s.time + 5)
  · refine Refuses.bind_ok (bitmapCreate_ok hn (by omega) hm.1 hm.2) ?_
    exact mountFreemap_refuses hn rfl (fun hf => hl ⟨hm.1, hm.2, hf⟩) rfl
  · exact (bitmapCreate_refuses hn hm).bind

theorem endInfo_freemapBlocks (super : SfsSuper) :
    super.endInfo.freemapBlocks = super.freemapBlocks := rfl

theorem endInfo_freemapBits (super : SfsSuper) :
    super.endInfo.freemapBits = super.freemapBits := rfl

/-- The assertion on the length holds. -/
theorem initFreemap_eq {bm : Bitmap} (hn : d.super.freemapBits ≠ 0)
    (hw : bm.nwords = d.super.freemapBits / 32) :
    initFreemap d bm sfsBlknFreemap d.super.freemapBlocks s =
      initFreemapLoop d d.super.freemapBlocks sfsBlknFreemap 0 bm s := by
  obtain ⟨hbits, hle, -⟩ := freemapBits_of_ne_zero hn
  unfold initFreemap
  rw [Code.assert_bind]
  rw [hw, hbits]
  exact initFreemap_len hle

/-- The blocks of the free map are read. -/
theorem freemapRead (hn : d.super.freemapBits ≠ 0)
    (hl : d.ReadsAll sfsBlknFreemap d.super.freemapBlocks s.time) :
    cleanupFreemap (initFreemap d ⟨d.super.freemapBits, d.super.freemapBits / 32, fun ix =>
        if ix < d.super.freemapBits / 32 then BitVec.allOnes 32 else 0⟩ sfsBlknFreemap
      d.super.freemapBlocks) s =
      some (.ok d.freemap, ⟨s.time + d.super.freemapBlocks, s.heap⟩) := by
  have hle : 2 + d.super.freemapBlocks ≤ 2 ^ 20 := by
    have := (freemapBits_of_ne_zero hn).2.1
    omega
  exact cleanupFreemap_ok ((initFreemap_eq hn rfl).trans (initFreemapLoop_ok hle hl))

theorem mountFreemap_counted {super : SfsSuper} {bm freemap : Bitmap} {n : ℕ}
    (hf : cleanupFreemap (initFreemap d bm sfsBlknFreemap super.freemapBlocks) s =
      some (.ok freemap, t))
    (hc : countUnused freemap (List.range super.freemapBits) 0 t = some (.ok n, u)) :
    mountFreemap d super bm s = (do
      Code.assert (n = super.unusedBlocks)
      let s ← Code.get
      pure (super, mountedSfs super freemap d.data s.time) : MountCode (SfsSuper × Sfs)) u := by
  unfold mountFreemap
  rw [Code.bind_ok hf, Code.bind_ok hc]

theorem mountFreemap_read {n : ℕ} (hn : d.super.freemapBits ≠ 0)
    (hl : d.ReadsAll sfsBlknFreemap d.super.freemapBlocks n) :
    mountFreemap d d.super.endInfo ⟨d.super.freemapBits, d.super.freemapBits / 32, fun ix =>
        if ix < d.super.freemapBits / 32 then BitVec.allOnes 32 else 0⟩ ⟨n, H⟩ =
      (do
        Code.assert (d.freemap.freeBits.card = d.super.endInfo.unusedBlocks)
        let s ← Code.get
        pure (d.super.endInfo, mountedSfs d.super.endInfo d.freemap d.data s.time) :
          MountCode (SfsSuper × Sfs)) ⟨n + d.super.freemapBlocks, H⟩ :=
  mountFreemap_counted (freemapRead (s := ⟨n, H⟩) hn hl) (countUnused_range d.freemap)

theorem doMount_mounted {freemap : Bitmap} {y : MountCode (SfsSuper × Sfs)}
    (h : d.Checked s.time)
    (hc : bitmapCreate d d.super.freemapBits
      ⟨s.time + 4, .hashList :: .sfsBuffer :: .fs :: s.heap⟩ =
      some (.ok freemap, t))
    (hm : mountFreemap d d.super.endInfo freemap t = y u) :
    doMount d s = cleanup .fs (cleanup .sfsBuffer (cleanup .hashList y)) u :=
  (doMount_checked h).trans
    (cleanup_congr (cleanup_congr ((cleanup_bind hc).trans (cleanup_congr hm))))

/-- The free map is read and counted. -/
theorem doMount_loaded (h : d.Checked s.time) (hn : d.super.freemapBits ≠ 0) (hl : d.Loads s.time) :
    doMount d s =
      cleanup .fs (cleanup .sfsBuffer (cleanup .hashList do
        Code.assert (d.freemap.freeBits.card = d.super.endInfo.unusedBlocks)
        let s ← Code.get
        pure (d.super.endInfo, mountedSfs d.super.endInfo d.freemap d.data s.time)))
      ⟨s.time + 4 + 2 + d.super.freemapBlocks,
        .map :: .bitmap :: .hashList :: .sfsBuffer :: .fs :: s.heap⟩ := by
  obtain ⟨hbits, -, -⟩ := freemapBits_of_ne_zero hn
  have hcreate : bitmapCreate d d.super.freemapBits
      ⟨s.time + 4, .hashList :: .sfsBuffer :: .fs :: s.heap⟩ =
      some (.ok ⟨d.super.freemapBits, d.super.freemapBits / 32, fun ix =>
        if ix < d.super.freemapBits / 32 then BitVec.allOnes 32 else 0⟩,
        ⟨s.time + 4 + 2, .map :: .bitmap :: .hashList :: .sfsBuffer :: .fs :: s.heap⟩) :=
    bitmapCreate_ok hn (by omega) hl.bitmap hl.map
  exact doMount_mounted h hcreate (mountFreemap_read hn hl.freemap)

/-- **A wrong number of unused blocks** fails the assertion of `sfs_do_mount`. -/
theorem doMount_miscounted (h : d.Checked s.time) (hn : d.super.freemapBits ≠ 0)
    (hl : d.Loads s.time) (hu : d.freemap.freeBits.card ≠ d.super.unusedBlocks) :
    doMount d s = none := by
  rw [doMount_loaded h hn hl]
  refine cleanup_none (cleanup_none (cleanup_none (Code.bind_none ?_)))
  exact if_neg hu

/-- **The file system is mounted.** -/
theorem doMount_ok (h : d.Checked s.time) (hn : d.super.freemapBits ≠ 0) (hl : d.Loads s.time)
    (hu : d.freemap.freeBits.card = d.super.unusedBlocks) : ∃ t, doMount d s =
      some (.ok (d.super.endInfo, mountedSfs d.super.endInfo d.freemap d.data t),
        ⟨t, .map :: .bitmap :: .hashList :: .sfsBuffer :: .fs :: s.heap⟩) := by
  refine ⟨s.time + 4 + 2 + d.super.freemapBlocks, ?_⟩
  rw [doMount_loaded h hn hl]
  refine cleanup_ok (cleanup_ok (cleanup_ok ?_))
  rw [Code.assert_bind (show _ = d.super.endInfo.unusedBlocks from hu)]
  rfl

end

end Ucore
