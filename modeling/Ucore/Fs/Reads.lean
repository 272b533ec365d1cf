/-
  Functions of the file system that read, and the loop of a read.

  * `Sfs.Reads`: a function that changes nothing returns a result, or the error of a request;
  * `ioLoop_reads`: what the loop of a read delivers, on any device.
-/
import Ucore.Fs.FileRun

namespace Ucore

/-- `x` changes nothing but the time, and returns `r` unless a request fails. -/
def Sfs.Reads (dev : Device) (s : Sfs) {α : Type} (x : K α) (r : Except Errno α) : Prop :=
  ∃ n r', x s = some (r', s.wait n) ∧ (r' = r ∨ dev.Faulty ∧ ∃ e, r' = .error e)

variable {dev : Device} {I : Finset ℕ} {E : Set ℕ} {s t : Sfs} {i k n : ℕ} {α β : Type} {x : K α}
  {f : α → K β} {a : α} {r : Except Errno β} {e : Errno}

namespace Sfs.Reads

theorem pure (a : α) : s.Reads dev (Pure.pure a : K α) (.ok a) := ⟨0, .ok a, rfl, .inl rfl⟩

theorem throw (e : Errno) : s.Reads dev (Code.throw e : K α) (.error e) :=
  ⟨0, .error e, rfl, .inl rfl⟩

theorem bind (h : s.Reads dev x (.ok a)) (hf : ∀ n, (s.wait n).Reads dev (f a) r) :
    s.Reads dev (x >>= f) r := by
  obtain ⟨n, r', hr, rfl | ⟨hd, e, rfl⟩⟩ := h
  · obtain ⟨m, r', hr', hres⟩ := hf n
    refine ⟨n + m, r', ?_, hres⟩
    rw [← Sfs.wait_wait]
    exact (Code.bind_ok hr).trans hr'
  · exact ⟨n, .error e, Code.bind_error hr, .inr ⟨hd, e, rfl⟩⟩

theorem bind_error (h : s.Reads dev x (.error e)) : s.Reads dev (x >>= f) (.error e) := by
  obtain ⟨n, r', hr, rfl | ⟨hd, e', rfl⟩⟩ := h
  · exact ⟨n, .error e, Code.bind_error hr, .inl rfl⟩
  · exact ⟨n, .error e', Code.bind_error hr, .inr ⟨hd, e', rfl⟩⟩

theorem assert {p : Prop} [Decidable p] (hp : p) {f : Unit → K β} (hf : s.Reads dev (f ()) r) :
    s.Reads dev (Code.assert p >>= f) r := by
  obtain ⟨n, r', hr, hres⟩ := hf
  exact ⟨n, r', (Code.assert_bind hp).trans hr, hres⟩

/-- No request fails. -/
theorem run {r : Except Errno α} (h : s.Reads dev x r) (hd : ¬dev.Faulty) :
    ∃ n, x s = some (r, s.wait n) := by
  obtain ⟨n, r', hr, rfl | ⟨hf, -⟩⟩ := h
  · exact ⟨n, hr⟩
  · exact absurd hf hd

end Sfs.Reads

/-! ## Requests -/

theorem kmalloc_reads : s.Reads dev (kmalloc dev) (.ok ()) := by
  cases hf : dev.fault s.time .kmalloc with
  | none => exact ⟨1, .ok (), Code.attempt_bind (request_ok hf), .inl rfl⟩
  | some e =>
    exact ⟨1, .error .noMem, Code.attempt_bind (request_error hf),
      .inr ⟨⟨_, _, by rw [hf]; simp⟩, _, rfl⟩⟩

theorem rbuf_reads {len b offset : ℕ} (h0 : b ≠ 0) (hlt : b < s.blocks) (ho : offset < 4096)
    (hl : offset + len ≤ 4096) :
    s.Reads dev (rbuf dev len b offset) (.ok ((s.disk b).from' offset)) := by
  obtain ⟨r, t, hr⟩ : Code.Runs (rbuf dev len b offset) s := rbuf_runs h0 hlt ho hl
  obtain ⟨rfl, hok | ⟨e, he, hf⟩⟩ := rbuf_eq_some hr
  · exact ⟨1, r, hr, .inl hok⟩
  · exact ⟨1, r, hr, .inr ⟨hf, e, he⟩⟩

theorem rbuf_reads_start {len b : ℕ} (h0 : b ≠ 0) (hlt : b < s.blocks) (hl : len ≤ 4096) :
    s.Reads dev (rbuf dev len b 0) (.ok (s.disk b)) := by
  have hfrom : (s.disk b).from' 0 = s.disk b := funext fun q => by rw [Bytes.from', Nat.zero_add]
  have hr : s.Reads dev (rbuf dev len b 0) (.ok ((s.disk b).from' 0)) :=
    rbuf_reads h0 hlt (by omega) (by omega)
  rwa [hfrom] at hr

theorem bmapLoad_reads (h : Acct I E s) (hc : s.cached i = true) (hk : k < 1036)
    (hlt : k < (s.din i).blocks) (h0 : s.bmap i k ≠ 0) :
    s.Reads dev (bmapLoad dev i k) (.ok (s.bmap i k)) := by
  obtain ⟨r, t, hr⟩ : Code.Runs (bmapLoad dev i k) s := bmapLoad_runs h hc hlt.le hk fun _ => h0
  have hr' := hr
  rw [bmapLoad, Code.get_bind_eq_some, Code.assert_bind_eq_some,
    decide_eq_false (Nat.ne_of_lt hlt)] at hr'
  obtain ⟨b, v, h₁, h₂⟩ | ⟨e, h₁, he⟩ := Code.bind_eq_some.1 hr'.2
  · obtain ⟨n, rfl, hb | ⟨e, he, -⟩⟩ := bmapGet_old h hc hk (.inl rfl) h₁
    · cases hb
      obtain ⟨-, h₂⟩ := (assertInuse_bind_iff (h.wait n).geo.bits).1 h₂
      rw [if_neg (Nat.ne_of_lt hlt)] at h₂
      obtain ⟨rfl, rfl⟩ := Code.pure_eq_some.1 h₂
      exact ⟨n, _, hr, .inl rfl⟩
    · cases he
  · obtain ⟨n, rfl, hb | ⟨e', -, hf⟩⟩ := bmapGet_old h hc hk (.inl rfl) h₁
    · cases hb
    · exact ⟨n, r, hr, .inr ⟨hf, e, he⟩⟩

/-! ## The bytes of a file -/

/-- Byte `p` of the blocks of `i`; there is none where the map has no entry. -/
def Sfs.byte (s : Sfs) (i p : ℕ) : UInt8 :=
  if p / 4096 < 1036 ∧ s.bmap i (p / 4096) ≠ 0 then s.disk (s.bmap i (p / 4096)) (p % 4096) else 0

/-- File `i` has its blocks, as far as its map goes. -/
def WholeFile (s : Sfs) (i : ℕ) : Prop := ∀ k < 1036, k < (s.din i).blocks → s.bmap i k ≠ 0

/-! ## The loop -/

/-- A piece is read, or a request fails. -/
theorem movePiece_reads {p : Piece} {alen : ℕ} (hu : s.Used k)
    (hp : 0 < p.size ∧ p.blkoff + p.size ≤ 4096 ∧ (p.whole = true → p.blkoff = 0 ∧ p.size = 4096)) :
    s.Reads dev (movePiece dev false p k buf alen)
      (.ok (buf.copy alen ((s.disk k).from' p.blkoff) p.size)) := by
  obtain ⟨h0, hle, hwh⟩ := hp
  obtain ⟨r, t, hr⟩ : Code.Runs (movePiece dev false p k buf alen) s := movePiece_runs hu h0 hle
  obtain ⟨n, -, rfl, rfl⟩ | ⟨_, _, hw, -⟩ | ⟨e, n, rfl, hf, rfl⟩ := movePiece_spec hwh hr
  · exact ⟨n, _, hr, .inl rfl⟩
  · cases hw
  · exact ⟨n, _, hr, .inr ⟨hf, e, rfl⟩⟩

/-- What the loop of a read from `a` to `c` has got. -/
structure Delivered (dev : Device) (s : Sfs) (i a c alen : ℕ) (buf : Bytes) (out : IoResult) :
    Prop where
  start : alen ≤ out.alen
  stop : out.alen ≤ alen + (c - a)
  all : out.ret = none → out.alen = alen + (c - a)
  error : ∀ e, out.ret = some e → dev.Faulty
  bytes : ∀ q, out.buf q =
    if alen ≤ q ∧ q < out.alen then s.byte i (a + (q - alen)) else buf q

namespace Delivered

theorem nil (a alen : ℕ) (buf : Bytes) : Delivered dev s i a a alen buf ⟨none, alen, buf⟩ where
  start := le_refl _
  stop := Nat.le_add_right _ _
  all _ := by rw [Nat.sub_self, Nat.add_zero]
  error _ h := by cases h
  bytes q := by
    rw [if_neg]
    dsimp only
    omega

theorem failed (hf : dev.Faulty) (e : Errno) (a c alen : ℕ) (buf : Bytes) :
    Delivered dev s i a c alen buf ⟨some e, alen, buf⟩ where
  start := le_refl _
  stop := Nat.le_add_right _ _
  all h := by cases h
  error _ _ := hf
  bytes q := by
    rw [if_neg]
    dsimp only
    omega

/-- A piece is read, and then the rest. -/
theorem cons {p : Piece} {a c alen : ℕ} {out : IoResult} (hblk : p.blkno = a / 4096)
    (hoff : p.blkoff = a % 4096) (hfit : p.blkoff + p.size ≤ 4096) (hk : p.blkno < 1036)
    (h0 : s.bmap i p.blkno ≠ 0) (hle : a + p.size ≤ c) (ht : t.byte i = s.byte i)
    (h : Delivered dev t i (a + p.size) c (alen + p.size)
      (buf.copy alen ((s.disk (s.bmap i p.blkno)).from' p.blkoff) p.size) out) :
    Delivered dev s i a c alen buf out := by
  have hstart := h.start
  have hstop := h.stop
  refine ⟨by omega, by omega, fun hr => ?_, h.error, fun q => ?_⟩
  · rw [h.all hr]
    omega
  · rw [h.bytes, ht]
    by_cases hq : alen + p.size ≤ q ∧ q < out.alen
    · rw [if_pos hq, if_pos (by omega)]
      congr 1
      omega
    · rw [if_neg hq]
      by_cases hq' : alen ≤ q ∧ q < alen + p.size
      · have hdiv : (a + (q - alen)) / 4096 = p.blkno := by omega
        rw [Bytes.copy_of_mem hq'.1 hq'.2, if_pos (by omega), Sfs.byte, hdiv, if_pos ⟨hk, h0⟩,
          Bytes.from']
        congr 1
        omega
      · rw [Bytes.copy_of_not_mem (by omega), if_neg (by omega)]

end Delivered

/-- **The loop of a read**, on any device. -/
theorem ioLoop_reads : ∀ {ps : List Piece} {a c alen : ℕ} {buf : Bytes} {s : Sfs},
    Tiles a ps c → c ≤ 1036 * 4096 → c ≤ (s.din i).blocks * 4096 → Acct I E s → WholeFile s i →
    s.cached i = true →
    ∃ n out, ioLoop dev i false ps buf alen s = some (.ok out, s.wait n) ∧
      Delivered dev s i a c alen buf out
  | [], a, c, alen, buf, s, ht, _, _, _, _, _ => by
    cases (ht : a = c)
    exact ⟨0, _, rfl, .nil a alen buf⟩
  | p :: ps, a, c, alen, buf, s, ht, hcap, hcb, h, hw, hc => by
    obtain ⟨⟨hblk, hoff, hpos, hfit, hwh⟩, -, ht⟩ := ht
    have hle := ht.le
    have hkb : p.blkno < (s.din i).blocks := by omega
    have hk : p.blkno < 1036 := by omega
    have h0 := hw _ hk hkb
    obtain ⟨m, r, h₁, rfl | ⟨hfault, e, rfl⟩⟩ : s.Reads dev (bmapLoad dev i p.blkno) _ :=
      bmapLoad_reads h hc hk hkb h0
    · have hu : (s.wait m).Used (s.bmap i p.blkno) := h.data_used (h.cached i hc) hk h0
      obtain ⟨m', r, h₂, rfl | ⟨hfault, e, rfl⟩⟩ :
          (s.wait m).Reads dev (movePiece dev false p (s.bmap i p.blkno) buf alen) _ :=
        movePiece_reads hu ⟨hpos, hfit, hwh⟩
      · rw [Sfs.wait_wait] at h₂
        obtain ⟨n, out, h₃, hout⟩ : ∃ n out, ioLoop dev i false ps
            (buf.copy alen ((s.disk (s.bmap i p.blkno)).from' p.blkoff) p.size) (alen + p.size)
            (s.wait (m + m')) = some (.ok out, (s.wait (m + m')).wait n) ∧ _ :=
          ioLoop_reads ht hcap hcb (h.wait (m + m')) hw hc
        refine ⟨m + m' + n, out, ?_, .cons (t := s.wait (m + m')) hblk hoff hfit hk h0 hle rfl
          hout⟩
        rw [ioLoop, ← Sfs.wait_wait]
        exact (Code.attempt_bind h₁).trans ((Code.attempt_bind h₂).trans h₃)
      · rw [Sfs.wait_wait] at h₂
        refine ⟨m + m', ⟨some e, alen, buf⟩, ?_, .failed hfault e a c alen buf⟩
        rw [ioLoop]
        exact (Code.attempt_bind h₁).trans (Code.attempt_bind h₂)
    · refine ⟨m, ⟨some e, alen, buf⟩, ?_, .failed hfault e a c alen buf⟩
      rw [ioLoop]
      exact Code.attempt_bind h₁

end Ucore
