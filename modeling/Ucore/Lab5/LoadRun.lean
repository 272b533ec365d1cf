/-
  What `load_icode` of lab5 loads.

  * `Cut.At`: where the loops are in a segment; `Cut.At.step`: a page is mapped and gets its bytes;
  * `copyLoop_run`, `bssLoop_run`, `loadBss_run`: the loops reach the end of their part;
  * `loadSegment_run`, `loadSegments_run`: the segments are loaded;
  * `loadIcode_run`: the image of the program.
-/
import Ucore.Lab5.LoadIcode
import Ucore.Process.Program

namespace Ucore.Loader.Lab5

open Pmm Vmm

variable {A : Allocator} {s s0 : Phys} {D I F P : Finset ℕ} {file : Bytes} {ph : Proghdr}
  {r size end_ f n : ℕ} {perm : BitVec 32} {c : Cut} {st : Load Unit} {room : ℕ → Bool}

/-- `start` and `la` are at the next page, or `start` is where the segment begins in it. -/
def Cut.Head (ph : Proghdr) (c : Cut) : Prop :=
  c.la ≤ c.start ∧ c.start < c.la + pgSize ∧ (c.start = c.la ∨ c.start = ph.pVa)

/-- `start` is in the page before `la`, which is `page`. -/
def Cut.Tail (s : Phys) (D I : Finset ℕ) (r : ℕ) (c : Cut) : Prop :=
  c.start < c.la ∧ c.la < c.start + pgSize ∧ ∃ e, Own s D I r (c.la / pgSize - 1) c.page e

/-- The bytes before `start` are there, and the pages before `la`. -/
structure Cut.At (D I F : Finset ℕ) (r : ℕ) (P : Finset ℕ) (file : Bytes) (ph : Proghdr)
    (s0 s : Phys) (c : Cut) : Prop where
  part : Partly D I F r P file ph s0 s c.start (c.la / pgSize)
  la : c.la % pgSize = 0
  place : c.Head ph ∨ c.Tail s D I r
  va : ph.pVa ≤ c.start

theorem pieceSize_eq {start la : ℕ} (h1 : la ≤ start) (h2 : start < la + pgSize)
    (h3 : start < end_) :
    pieceSize end_ (start - la) (la + pgSize) = min (la + pgSize) end_ - start := by
  unfold pieceSize
  dsimp only
  split <;> omega

namespace Cut.At

variable (hR : Ready A F P ph size) (hst : st.pgdir = r) (hend : end_ ≤ ph.pVa + ph.pMemsz)
include hR hst hend

/-- **A page is mapped, and gets its bytes.** -/
theorem step (src : Bytes) (h : Cut.At D I F r P file ph s0 st.phys c) (hhead : c.Head ph)
    (hlt : c.start < end_) (hperm : PermOk perm)
    (hsrc : ∀ j, c.start + j < end_ → src j = ph.byte file (c.start + j)) :
    ∃ p t u, allocPage A c.la perm st = some (.ok (some p), { st with phys := t }) ∧
      memcpy p (c.start - c.la) src (min (c.la + pgSize) end_ - c.start) { st with phys := t } =
        some (.ok (), { st with phys := u }) ∧
      ∀ f, Cut.At D I F r P file ph s0 u
        ⟨c.start + (min (c.la + pgSize) end_ - c.start), c.la + pgSize, f, p⟩ := by
  obtain ⟨h1, h2, h3⟩ := hhead
  obtain ⟨hpos, htop, -, hfirst, -, hlast, -⟩ := hR.ok.bounds
  have hla := h.la
  have hva := h.va
  have hmul : c.la / pgSize * pgSize = c.la := Nat.div_mul_cancel (Nat.dvd_of_mod_eq_zero hla)
  have hlo : ph.first ≤ c.la / pgSize := by
    unfold Proghdr.first pgSize at *
    omega
  have hhi : c.la / pgSize < ph.last := by
    unfold Proghdr.last pgSize at *
    omega
  obtain ⟨p, t, hrun, hp, hpart, hown⟩ := h.part.alloc hR.ok hR.disjoint hR.complete hperm hR.used
    hlo hhi (by rw [hmul]; omega)
  rw [hmul] at hrun
  have hoff : c.la / pgSize * pgSize + (c.start - c.la) = c.start := by
    rw [hmul]
    omega
  obtain ⟨len, hlen⟩ : ∃ len, len = min (c.la + pgSize) end_ - c.start := ⟨_, rfl⟩
  rw [← hlen]
  obtain ⟨hpart', hown'⟩ : Partly D I F r P file ph s0 (t.store p (c.start - c.la) src len)
      (c.start + len) _ ∧ _ :=
    hpart.store hR.ok hR.disjoint hown hlo hhi hoff (by omega) fun j hj _ => hsrc j (by omega)
  have hdiv : (c.la + pgSize) / pgSize = c.la / pgSize + 1 := Nat.add_div_right _ (by decide)
  refine ⟨p, t, _, allocPage_run (hst ▸ hrun), memcpy_run (hpart.space.own_lt hown) (by omega),
    fun f => ⟨?_, ?_, ?_, ?_⟩⟩
  · rw [hdiv]
    exact hpart'
  · rw [Nat.add_mod_right, hla]
  · by_cases he : c.la + pgSize ≤ end_
    · refine .inl ⟨?_, ?_, .inl ?_⟩ <;> dsimp only <;> omega
    · refine .inr ⟨?_, ?_, pteCreate p (pteV.setWidth 32 ||| perm), ?_⟩
      · dsimp only
        omega
      · dsimp only
        omega
      · rw [hdiv]
        exact hown'
  · exact hva.trans (Nat.le_add_right _ _)

end Cut.At

/-! ## The loops -/

/-- Behind a page, the next one starts, or the part ends. -/
theorem head_of_lt {la p f start : ℕ} (h1 : start < la + pgSize)
    (h : start + (min (la + pgSize) end_ - start) < end_) :
    Cut.Head ph ⟨start + (min (la + pgSize) end_ - start), la + pgSize, f, p⟩ := by
  have hpos : 0 < pgSize := by decide
  refine ⟨?_, ?_, .inl ?_⟩ <;> dsimp only <;> omega

theorem copyLoop_run (hR : Ready A F P ph size) (hperm : PermOk perm)
    (hend : end_ = ph.pVa + ph.pFilesz) : ∀ n c (st : Load Unit), st.pgdir = r →
    Cut.At D I F r P file ph s0 st.phys c → (c.start < end_ → c.Head ph) → c.start ≤ end_ →
    c.from_ = ph.pOffset + (c.start - ph.pVa) → 0 < n → end_ + pgSize ≤ c.la + n * pgSize →
    ∃ c' t, copyLoop A file perm end_ n c st = some (.ok c', { st with phys := t }) ∧
      Cut.At D I F r P file ph s0 t c' ∧ c'.start = end_ := by
  intro n
  induction n with
  | zero =>
    intro c st _ _ _ _ _ hn
    omega
  | succ n ih =>
    intro c st hst h hhead hle hfrom _ hn
    rw [copyLoop]
    by_cases hlt : c.start < end_
    · have hle' : end_ ≤ ph.pVa + ph.pMemsz := hend.trans_le (Nat.add_le_add_left hR.ok.filesz _)
      have hva := h.va
      obtain ⟨h1, h2, -⟩ := hhead hlt
      obtain ⟨p, t, u, halloc, hcopy, hat⟩ := Cut.At.step hR hst hle'
        (file.from' c.from_) h (hhead hlt) hlt hperm fun j hj => by
          rw [Proghdr.byte, if_pos (by omega), Bytes.from', hfrom]
          congr 1
          omega
      rw [if_pos hlt, Code.bind_ok halloc]
      simp only [pieceSize_eq h1 h2 hlt]
      rw [Code.bind_ok hcopy]
      refine ih _ { st with phys := u } hst (hat _) (head_of_lt h2) ?_ ?_ ?_ ?_
      · dsimp only
        omega
      · dsimp only
        omega
      · unfold pgSize at *
        omega
      · dsimp only
        rw [Nat.add_one_mul] at hn
        omega
    · rw [if_neg hlt]
      exact ⟨c, st.phys, rfl, h, by omega⟩

theorem bssLoop_run (hR : Ready A F P ph size) (hperm : PermOk perm)
    (hend : end_ = ph.pVa + ph.pMemsz) : ∀ n c (st : Load Unit), st.pgdir = r →
    Cut.At D I F r P file ph s0 st.phys c → (c.start < end_ → c.Head ph) → c.start ≤ end_ →
    ph.pVa + ph.pFilesz ≤ c.start → 0 < n → end_ + pgSize ≤ c.la + n * pgSize →
    ∃ c' t, bssLoop A perm end_ n c st = some (.ok (), { st with phys := t }) ∧
      Cut.At D I F r P file ph s0 t c' ∧ c'.start = end_ := by
  intro n
  induction n with
  | zero =>
    intro c st _ _ _ _ _ hn
    omega
  | succ n ih =>
    intro c st hst h hhead hle hfile _ hn
    rw [bssLoop]
    by_cases hlt : c.start < end_
    · obtain ⟨h1, h2, -⟩ := hhead hlt
      obtain ⟨p, t, u, halloc, hset, hat⟩ := Cut.At.step hR hst hend.le
        (fun _ => 0) h (hhead hlt) hlt hperm fun j hj => by
          rw [Proghdr.byte, if_neg (by omega)]
      rw [if_pos hlt, Code.bind_ok halloc]
      simp only [pieceSize_eq h1 h2 hlt, memset]
      rw [Code.bind_ok hset]
      refine ih _ { st with phys := u } hst (hat _) (head_of_lt h2) ?_ ?_ ?_ ?_
      · dsimp only
        omega
      · dsimp only
        omega
      · unfold pgSize at *
        omega
      · dsimp only
        rw [Nat.add_one_mul] at hn
        omega
    · rw [if_neg hlt]
      exact ⟨c, st.phys, rfl, h, by omega⟩

/-- At the end of a segment, all of its pages are mapped. -/
theorem Cut.At.finish (h : Cut.At D I F r P file ph s0 s c) (hok : ph.Ok size)
    (he : c.start = ph.pVa + ph.pMemsz) :
    Partly D I F r P file ph s0 s (ph.pVa + ph.pMemsz) ph.last := by
  have hlast : c.la / pgSize = ph.last := by
    have hla := h.la
    have hpos := hok.memsz
    unfold Proghdr.last
    obtain ⟨h1, h2, h3⟩ | ⟨h1, h2, -⟩ := h.place
    · unfold pgSize at *
      omega
    · unfold pgSize at *
      omega
  have hpart := h.part
  rwa [hlast, he] at hpart

theorem loadBss_run (hR : Ready A F P ph size) (hperm : PermOk perm) (hst : st.pgdir = r)
    (h : Cut.At D I F r P file ph s0 st.phys c) (hc : c.start = ph.pVa + ph.pFilesz) :
    ∃ t, loadBss A perm (ph.pVa + ph.pMemsz) c st = some (.ok (), { st with phys := t }) ∧
      Partly D I F r P file ph s0 t (ph.pVa + ph.pMemsz) ph.last := by
  have hfile := hR.ok.filesz
  have hla := h.la
  have hva := h.va
  obtain ⟨end_, hend⟩ : ∃ end_, end_ = ph.pVa + ph.pMemsz := ⟨_, rfl⟩
  have hfuel : ∀ {start la : ℕ}, start < la + pgSize →
      end_ + pgSize ≤ la + (pages start end_ + 2) * pgSize := fun hlt => by
    unfold pages pgSize at *
    omega
  rw [← hend]
  unfold loadBss
  by_cases hlt : c.start < c.la
  · obtain ⟨h1, -, -⟩ | ⟨-, h2, e, hown⟩ := h.place
    · omega
    rw [if_pos hlt]
    by_cases heq : c.start = end_
    · rw [if_pos heq]
      exact ⟨st.phys, rfl, hend ▸ h.finish hR.ok (heq.trans hend)⟩
    · -- the page before `la` has room behind the file
      rw [if_neg heq]
      obtain ⟨size', hsize⟩ : ∃ n, n = pieceSize end_ (c.start + pgSize - c.la) c.la := ⟨_, rfl⟩
      have hmin : c.start + size' = min c.la end_ := by
        rw [hsize]
        unfold pieceSize
        dsimp only
        split <;> omega
      have hlo : ph.first ≤ c.la / pgSize - 1 := by
        unfold Proghdr.first pgSize at *
        omega
      have hhi : c.la / pgSize - 1 < ph.last := by
        unfold Proghdr.last pgSize at *
        omega
      have hoff : (c.la / pgSize - 1) * pgSize + (c.start + pgSize - c.la) = c.start := by
        unfold pgSize at *
        omega
      obtain ⟨hpart, hown'⟩ : Partly D I F r P file ph s0
          (st.phys.store c.page (c.start + pgSize - c.la) (fun _ => 0) size')
            (c.start + size') _ ∧ _ :=
        h.part.store hR.ok hR.disjoint hown hlo hhi hoff (by omega) fun j _ _ => by
          rw [Proghdr.byte, if_neg (by omega)]
      have hat : Cut.At D I F r P file ph s0
          (st.phys.store c.page (c.start + pgSize - c.la) (fun _ => 0) size')
          { c with start := c.start + size' } := by
        refine ⟨hpart, hla, ?_, hva.trans (Nat.le_add_right _ _)⟩
        by_cases he : c.la ≤ end_
        · refine .inl ⟨?_, ?_, .inl ?_⟩ <;> dsimp only <;> omega
        · refine .inr ⟨?_, ?_, e, hown'⟩ <;> dsimp only <;> omega
      simp only [← hsize, memset]
      rw [Code.bind_ok (memcpy_run (h.part.space.own_lt hown) (by omega)),
        Code.assert_bind (by omega)]
      obtain ⟨c', t, hrun, hat', he'⟩ :=
        bssLoop_run hR hperm hend (pages (c.start + size') end_ + 2)
        { c with start := c.start + size' } { st with
          phys := st.phys.store c.page (c.start + pgSize - c.la) (fun _ => 0) size' } hst hat
        (fun hlt' => ⟨by dsimp only at *; omega, by dsimp only at *; omega,
          .inl (by dsimp only at *; omega)⟩)
        (by dsimp only; omega) (by dsimp only; omega) (by omega)
        (hfuel (show c.start + size' < c.la + pgSize by omega))
      exact ⟨t, hrun, hend ▸ hat'.finish hR.ok (he'.trans hend)⟩
  · rw [if_neg hlt]
    obtain hhead | ⟨h1, -⟩ := h.place
    · obtain ⟨c', t, hrun, hat, he⟩ := bssLoop_run hR hperm hend (pages c.start end_ + 2) c st hst h
        (fun _ => hhead) (by omega) hc.ge (by omega) (hfuel hhead.2.1)
      exact ⟨t, hrun, hend ▸ hat.finish hR.ok (he.trans hend)⟩
    · exact absurd h1 hlt

/-! ## Segments -/

variable {G : Unit → Prop} {done : List Proghdr}

/-- **A segment is loaded.** -/
theorem loadSegment_run (hB : Building D I F r file G done st) (hall : ∀ q ∈ done, q.Ok size)
    (hR : Ready A F (pagesOf done) ph size) (hroom : ∀ n, room n = true)
    (htype : ph.pType = elfPtLoad) :
    ∃ st', loadSegment A room file ph st = some (.ok (), st') ∧
      Building D I F r file G (done ++ [ph]) st' := by
  obtain ⟨hstart, hend, hfile, hmem⟩ := hR.ok.mapRange
  obtain ⟨m, hmap, ho, hiff⟩ := hB.map hall hR.ok hR.disjoint hroom hstart hend
  have hla : roundDown ph.pVa pgSize = ph.first * pgSize := hstart
  have hdiv : ph.first * pgSize / pgSize = ph.first := Nat.mul_div_left _ (by decide)
  obtain ⟨-, -, -, h1, h2, -⟩ := hR.ok.bounds
  have hat : Cut.At D I F r (pagesOf done) file ph st.phys st.phys
      ⟨ph.pVa, roundDown ph.pVa pgSize, ph.pOffset, 0⟩ := by
    rw [hla]
    refine ⟨?_, Nat.mul_mod_left _ _, .inl ⟨h1, ?_, .inr rfl⟩, le_rfl⟩
    · dsimp only
      rw [hdiv]
      exact .init hB.space
    · dsimp only
      rw [Nat.add_one_mul] at h2
      exact h2
  obtain ⟨c, t, hcopy, hat', hc⟩ := copyLoop_run hR (permOk_segPerm (segFlags ph.pFlags)) rfl
    (pages ph.pVa (ph.pVa + ph.pFilesz) + 2) _ { st with mm := some m, mallocs := st.mallocs + 1 }
    hB.pgdir hat (fun _ => hat.place.resolve_right fun hT => by
      have := hT.1
      dsimp only at this
      rw [hla] at this
      omega) (Nat.le_add_right _ _) (by dsimp only; omega) (by omega) (by
      dsimp only
      rw [hla]
      unfold pages pgSize at *
      omega)
  obtain ⟨u, hbss, hpart⟩ : ∃ u, loadBss A (segPerm (segFlags ph.pFlags)) (ph.pVa + ph.pMemsz) c
      { st with phys := t, mm := some m, mallocs := st.mallocs + 1 } = some (.ok (),
        { st with phys := u, mm := some m, mallocs := st.mallocs + 1 }) ∧ _ :=
    loadBss_run hR (permOk_segPerm (segFlags ph.pFlags)) hB.pgdir hat' hc
  refine ⟨{ st with phys := u, mm := some m, mallocs := st.mallocs + 1 }, ?_,
    hB.add hall hpart le_rfl ⟨m, rfl, ho, hiff⟩ hB.pgdir hB.cur hB.io⟩
  unfold loadSegment
  rw [if_neg (not_not.2 htype), if_neg (not_lt.2 hR.ok.filesz)]
  simp only
  rw [Code.bind_ok hmap, hfile, hmem, Code.bind_ok hcopy]
  exact hbss

theorem loadSegments_run (hP : Program file size) (hA : A.Complete)
    (hroom : ∀ n, room n = true) {k : ℕ} (hF : need file k ≤ F.card + 1) :
    ∀ n i (st : Load Unit), i + n = (Elfhdr.ofBytes file).ePhnum →
    Building D I F r file G (segments file i) st →
    ∃ st', loadSegments A room file n ((Elfhdr.ofBytes file).ePhoff + i * sizeofProghdr) st =
        some (.ok (), st') ∧ Building D I F r file G (programSegments file) st' := by
  intro n
  induction n with
  | zero =>
    intro i st hi h
    rw [Nat.add_zero] at hi
    rw [hi] at h
    exact ⟨st, rfl, h⟩
  | succ n ih =>
    intro i st hi h
    have hnext : (Elfhdr.ofBytes file).ePhoff + i * sizeofProghdr + sizeofProghdr =
        (Elfhdr.ofBytes file).ePhoff + (i + 1) * sizeofProghdr := by
      rw [Nat.add_one_mul, Nat.add_assoc]
    obtain ⟨st', hrun, h'⟩ : ∃ st', loadSegment A room file (phdr file i) st = some (.ok (), st') ∧
        Building D I F r file G (segments file (i + 1)) st' := by
      rw [segments_succ]
      by_cases ht : (phdr file i).pType = elfPtLoad
      · rw [if_pos ht]
        refine loadSegment_run h (fun ph hph => hP.ok ph ?_) (hP.ready hA hF (by omega) ht) hroom ht
        exact (segments_sublist (show i ≤ (Elfhdr.ofBytes file).ePhnum by omega)).subset hph
      · rw [if_neg ht, List.append_nil]
        have hskip : loadSegment A room file (phdr file i) st = some (.ok (), st) := by
          unfold loadSegment
          rw [if_pos ht]
          rfl
        exact ⟨st, hskip, h⟩
    obtain ⟨u, hrun', hu⟩ := ih (i + 1) st' (by omega) h'
    refine ⟨u, ?_, hu⟩
    rw [loadSegments]
    refine (Code.bind_ok hrun).trans ?_
    rw [hnext]
    exact hrun'

/-! ## `load_icode` -/

theorem allocStack_run {k : ℕ} (h : Stacked D I F r file G k st) (hP : Program file size)
    (hA : A.Complete) (hk : k < 256) (hF : need file (k + 1) ≤ F.card + 1) :
    ∃ st', allocStack A (k + 1) st = some (.ok (), st') ∧ Stacked D I F r file G (k + 1) st' := by
  obtain ⟨p, t, hrun, hS, -⟩ := h.alloc hP hA hk hF
  exact ⟨_, Code.bind_ok hrun, hS⟩

/-- **`load_icode` of lab5** loads the program. -/
theorem loadIcode_run {boot : ℕ} (hP : Program file size)
    (hM : Suffices A room boot D I (need file 4) st.phys) (hc : st.curMm = false) :
    ∃ st', loadIcode A room boot file st = some (.ok (), st') ∧ Image file 4 st' := by
  obtain ⟨st0, hst0⟩ : ∃ st0 : Load Unit, st0 = { st with
      mm := some mmCreate
      mmCount := 0
      mallocs := st.mallocs + 1 } := ⟨_, rfl⟩
  have hcreate : createMm room st = some (.ok true, st0) := hst0 ▸ createMm_run hM.room
  have hM0 : Suffices A room boot D I (need file 4) st0.phys := hst0 ▸ hM
  have hc0 : st0.curMm = false := hst0 ▸ hc
  obtain ⟨r, t, hsetup, hB, hcard, -⟩ : ∃ (r : ℕ) (t : Phys),
      setupPgdir A boot st0 = some (.ok (), { st0 with phys := t, pgdir := r }) ∧
      Building (insert r D) I t.free r file (fun _ : Unit => True) (segments file 0)
        { st0 with phys := t, pgdir := r } ∧ _ :=
    Building.start hM0 (by rw [hst0]) hc0 trivial
  have hF : need file 4 ≤ t.free.card + 1 := Nat.succ_le_succ hcard
  obtain ⟨st1, hseg, hB1⟩ := loadSegments_run hP hM.complete hM.room hF
    (Elfhdr.ofBytes file).ePhnum 0 _ (Nat.zero_add _) hB
  obtain ⟨st2, hstack, h0⟩ := hB1.stack hP hM.room
  obtain ⟨st3, hrun1, h1⟩ := allocStack_run h0 hP hM.complete (by decide)
    ((need_mono (by decide)).trans hF)
  obtain ⟨st4, hrun2, h2⟩ := allocStack_run h1 hP hM.complete (by decide)
    ((need_mono (by decide)).trans hF)
  obtain ⟨st5, hrun3, h3⟩ := allocStack_run h2 hP hM.complete (by decide)
    ((need_mono (by decide)).trans hF)
  obtain ⟨st6, hrun4, h4⟩ := allocStack_run h3 hP hM.complete (by decide) hF
  obtain ⟨tf, htf⟩ : ∃ tf : Trapframe, tf =
    { epc := (Elfhdr.ofBytes file).eEntry, sp := ustackTop, a0 := 0, a1 := 0
      status := (st6.tf.status &&& ~~~sstatusSpp) ||| sstatusSpie } := ⟨_, rfl⟩
  have himage : Image file 4 { st6 with
      mmCount := st6.mmCount + 1
      curMm := true
      satp := st6.pgdir
      tf := tf } := h4.image (by rw [htf])
  refine ⟨_, ?_, himage⟩
  unfold loadIcode
  rw [Code.bind_ok (rfl : (Code.get : M Unit _) st = _), Code.assert_bind hc, Code.bind_ok hcreate,
    if_pos rfl, Code.attempt_bind hsetup]
  have hmap : (do
      loadSegments A room file (Elfhdr.ofBytes file).ePhnum (Elfhdr.ofBytes file).ePhoff
      mapArea room (ustackTop - ustackSize) ustackSize (vmRead ||| vmWrite ||| vmStack) :
          M Unit Unit)
      { st0 with phys := t, pgdir := r } = some (.ok (), st2) := by
    rw [Nat.zero_mul, Nat.add_zero] at hseg
    exact (Code.bind_ok hseg).trans hstack
  simp only [hP.magic, ne_eq, not_true_eq_false, if_false]
  rw [Code.attempt_bind hmap]
  exact (Code.bind_ok hrun1).trans <| (Code.bind_ok hrun2).trans <|
    (Code.bind_ok hrun3).trans <| (Code.bind_ok hrun4).trans (htf ▸ rfl)

end Ucore.Loader.Lab5
