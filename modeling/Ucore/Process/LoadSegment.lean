/-
  What `load_icode` of lab8 loads of a program.

  * `Reading`: the program is open, and its header is in `elf`;
  * `readPage_run`: a page gets the bytes of the file, and zeros;
  * `pageLoop_run`, `loadSegment_run`, `loadSegments_run`: the segments are loaded;
  * `loadImage_run`: the segments and a page of the stack.
-/
import Ucore.Process.LoadIcode
import Ucore.Process.Program

namespace Ucore.Loader

open Pmm Vmm

variable {A : Allocator} {dev : Device} {room : ℕ → Bool} {junk file : Bytes} {frame : StackFrame}
  {D I F P : Finset ℕ} {fd ino size hi p r : ℕ} {ph : Proghdr} {s0 : Phys} {perm : BitVec 32}
  {st : Load FileSide}

/-- The page is in the part of memory that is the kernel's. -/
def Direct (p : ℕ) : Prop := kernBase ≤ kva p ∧ kva p + pgSize ≤ kernTop

/-- The program is open, and its header is in the variable of `load_icode`. -/
structure Reading (dev : Device) (fd ino size : ℕ) (file : Bytes) (frame : StackFrame)
    (io : FileSide) : Prop where
  open' : OpenFile dev fd ino size file io
  elf : ∀ k < sizeofElfhdr, io.stack (frame.elf + k) = file k

/-! ## Pages -/

/-- **A page gets its bytes.** -/
theorem readPage_run (junk : Bytes) (st : Load FileSide)
    (h : OpenFile dev fd ino size file st.io) (hc : st.curMm = false)
    (hroom : ∀ n, room n = true) (hp : p < st.phys.npage) (hk : Direct p) (hok : ph.Ok size)
    (hlo : ph.first ≤ hi) :
    ∃ src io m, readPage dev room junk fd ph (hi * pgSize) p st = some (.ok (), { st with
        phys := st.phys.store p 0 src pgSize
        io := io
        mallocs := m }) ∧
      OpenFile dev fd ino size file io ∧ io.stack = st.io.stack ∧
      ∀ j < pgSize, ph.pVa ≤ hi * pgSize + j → src j = ph.byte file (hi * pgSize + j) := by
  have hset : memset p 0 0 pgSize st =
      some (.ok (), { st with phys := st.phys.store p 0 (fun _ => 0) pgSize }) :=
    memcpy_run hp (Nat.zero_add _).le
  obtain ⟨-, -, hfile, -⟩ := hok.mapRange
  have hva : ph.pVa < hi * pgSize + pgSize := by
    unfold Proghdr.first pgSize at *
    omega
  have hsize := hok.file
  have hcap := h.cap
  obtain ⟨cur, hcur⟩ : ∃ cur, cur = hi * pgSize := ⟨_, rfl⟩
  obtain ⟨a, ha⟩ : ∃ a, a = if cur < ph.pVa then ph.pVa else cur := ⟨_, rfl⟩
  obtain ⟨b, hb⟩ : ∃ b, b = if cur + pgSize < ph.pVa + ph.pFilesz then cur + pgSize else
    ph.pVa + ph.pFilesz := ⟨_, rfl⟩
  have ha' : a = max cur ph.pVa := by
    rw [ha]
    split <;> omega
  have hb' : b = min (cur + pgSize) (ph.pVa + ph.pFilesz) := by
    rw [hb]
    split <;> omega
  rw [← hcur] at hva ⊢
  unfold readPage
  rw [Code.bind_ok hset, hfile]
  simp only [← ha, ← hb]
  by_cases hab : a < b
  · have hoff : Int.bmod ((ph.pOffset : ℤ) + ((a : ℤ) - (ph.pVa : ℤ))) (2 ^ 64) =
        ((ph.pOffset + (a - ph.pVa) : ℕ) : ℤ) := by
      rw [Int.bmod_eq_of_le (by omega) (by omega)]
      omega
    obtain ⟨io, hrun, hio, hstack⟩ :
        ∃ io, loadIcodeRead dev room junk fd (.page p (a - cur)) (b - a)
        ((ph.pOffset + (a - ph.pVa) : ℕ) : ℤ)
        { st with phys := st.phys.store p 0 (fun _ => 0) pgSize } = some (.ok (), _) ∧
          OpenFile dev fd ino size file io ∧ io.stack = st.io.stack :=
      loadIcodeRead_run (s := { st with phys := st.phys.store p 0 (fun _ => 0) pgSize }) h hc
        (by omega) (by omega) (by unfold ioBufSize pgSize at *; omega)
        ⟨⟨hk.1.trans (Nat.le_add_right _ _), by omega, by
          have := hk.2
          dsimp only [Dst.addr]
          omega⟩, fun q off he => by
          cases he
          exact ⟨hp, by omega⟩⟩ hroom
    rw [if_pos hab, hoff]
    refine ⟨Bytes.copy (fun _ => 0) (a - cur) (file.from' (ph.pOffset + (a - ph.pVa))) (b - a), io,
      st.mallocs + 1, hrun.trans ?_, hio, hstack, fun j hj hle => ?_⟩
    · simp only [Dst.put]
      rw [Phys.store_store (by omega)]
    · by_cases hin : a - cur ≤ j ∧ j < a - cur + (b - a)
      · rw [Bytes.copy_of_mem hin.1 hin.2, Proghdr.byte, if_pos (by omega), Bytes.from']
        congr 1
        omega
      · rw [Bytes.copy_of_not_mem (by omega), Proghdr.byte, if_neg (by omega)]
  · rw [if_neg hab]
    refine ⟨fun _ => 0, st.io, st.mallocs, rfl, h, rfl, fun j hj hle => ?_⟩
    rw [Proghdr.byte, if_neg (by omega)]

theorem pageLoop_run (junk : Bytes) (hR : Ready A F P ph size) (hroom : ∀ n, room n = true)
    (hk : ∀ p ∈ F, Direct p) (hperm : PermOk perm) : ∀ n hi (st : Load FileSide), st.pgdir = r →
    st.curMm = false → OpenFile dev fd ino size file st.io →
    Partly D I F r P file ph s0 st.phys (hi * pgSize) hi → ph.first ≤ hi → hi ≤ ph.last →
    ph.last < hi + n →
    ∃ t io m, pageLoop A dev room junk fd ph perm (ph.last * pgSize) n (hi * pgSize) st =
        some (.ok (), { st with phys := t, io := io, mallocs := m }) ∧
      Partly D I F r P file ph s0 t (ph.last * pgSize) ph.last ∧
      OpenFile dev fd ino size file io ∧ io.stack = st.io.stack := by
  intro n
  induction n with
  | zero =>
    intro hi st _ _ _ _ _ _ hn
    omega
  | succ n ih =>
    intro hi st hst hc ho h hlo hle hn
    have hpos : 0 < pgSize := by decide
    rw [pageLoop]
    by_cases hlt : hi < ph.last
    · obtain ⟨p, t, hrun, hp, hpart, hown⟩ :=
        h.alloc hR.ok hR.disjoint hR.complete hperm hR.used hlo
        hlt (.inl le_rfl)
      have halloc :
          allocPage A (hi * pgSize) perm st = some (.ok (some p), { st with phys := t }) :=
        allocPage_run (hst ▸ hrun)
      obtain ⟨src, io, m, hread, hio, hstack, hsrc⟩ := readPage_run junk
        { st with phys := t } ho hc hroom (hpart.space.own_lt hown) (hk p hp) hR.ok hlo
      obtain ⟨hpart', -⟩ : Partly D I F r P file ph s0 (t.store p 0 src pgSize)
          (hi * pgSize + pgSize) (hi + 1) ∧ _ :=
        hpart.store hR.ok hR.disjoint hown hlo hlt (Nat.add_zero _) (Nat.zero_add _).le hsrc
      rw [← Nat.add_one_mul] at hpart'
      obtain ⟨u, io', m', hloop, hpart'', hio', hstack'⟩ := ih (hi + 1)
        { st with phys := t.store p 0 src pgSize, io := io, mallocs := m } hst hc hio hpart'
        (by omega)
        hlt (by omega)
      refine ⟨u, io', m', ?_, hpart'', hio', hstack'.trans hstack⟩
      rw [if_pos (Nat.mul_lt_mul_of_pos_right hlt hpos), Code.bind_ok halloc]
      simp only
      rw [Code.bind_ok hread, ← Nat.add_one_mul]
      exact hloop
    · obtain rfl : hi = ph.last := by omega
      rw [if_neg (lt_irrefl _)]
      exact ⟨st.phys, st.io, st.mallocs, rfl, h, ho, rfl⟩

/-! ## Segments -/

variable {done : List Proghdr}

/-- **A segment is loaded.** -/
theorem loadSegment_run (hB : Building D I F r file (Reading dev fd ino size file frame) done st)
    (hall : ∀ q ∈ done, q.Ok size) (hR : Ready A F (pagesOf done) ph size)
    (hroom : ∀ n, room n = true) (hk : ∀ p ∈ F, Direct p) (htype : ph.pType = elfPtLoad) :
    ∃ st', loadSegment A dev room junk fd ph st = some (.ok (), st') ∧
      Building D I F r file (Reading dev fd ino size file frame) (done ++ [ph]) st' := by
  obtain ⟨hstart, hend, -, hmem⟩ := hR.ok.mapRange
  obtain ⟨hlt, htop, hstack, hfirst, -, -, hbase⟩ := hR.ok.bounds
  have hla : roundDown ph.pVa pgSize = ph.first * pgSize := hstart
  have hle : roundUp ((ph.pVa + ph.pMemsz) % 2 ^ 64) pgSize = ph.last * pgSize := hend
  have hlen : (ph.last * pgSize + 2 ^ 64 - ph.first * pgSize) % 2 ^ 64 =
      ph.last * pgSize - ph.first * pgSize := by
    unfold ustackTop ustackSize userTop pgSize at *
    omega
  have hstart' : mapStart (ph.first * pgSize) = ph.first * pgSize := by
    unfold mapStart roundDown pgSize
    omega
  have hend' : mapEnd (ph.first * pgSize) (ph.last * pgSize - ph.first * pgSize) =
      ph.last * pgSize := by
    unfold mapEnd
    rw [Nat.add_sub_cancel' (Nat.mul_le_mul_right _ hlt.le), Nat.mod_eq_of_lt (by
      unfold ustackTop ustackSize userTop pgSize at *
      omega), roundUp_eq (by
      unfold ustackTop ustackSize userTop pgSize at *
      omega)]
    unfold pageCeil pgSize
    omega
  obtain ⟨m, hmap, ho, hiff⟩ := hB.map hall hR.ok hR.disjoint hroom hstart' hend'
  obtain ⟨t, io, m', hloop, hpart, hio, hkeep⟩ := pageLoop_run junk hR hroom hk
    (permOk_segPerm (segFlags ph.pFlags)) (Pmm.pages (ph.first * pgSize) (ph.last * pgSize) + 1)
    ph.first { st with mm := some m, mallocs := st.mallocs + 1 } hB.pgdir hB.cur hB.io.open'
    ((Partly.init hB.space).mono hfirst) le_rfl hlt.le (by
      unfold Pmm.pages pgSize
      omega)
  have hkept : Reading dev fd ino size file frame io :=
    ⟨hio, fun k hk => (congrFun hkeep _).trans (hB.io.elf k hk)⟩
  have hB' : Building D I F r file (Reading dev fd ino size file frame) (done ++ [ph])
      { st with phys := t, mm := some m, io := io, mallocs := m' } :=
    hB.add hall hpart htop ⟨m, rfl, ho, hiff⟩ hB.pgdir hB.cur hkept
  refine ⟨_, ?_, hB'⟩
  unfold loadSegment
  rw [if_neg (not_not.2 htype), if_neg (not_lt.2 hR.ok.filesz)]
  rw [hla, hle, hlen]
  exact (Code.bind_ok hmap).trans hloop

/-! ## The loop over the program headers -/

theorem elfhdr_run (h : Reading dev fd ino size file frame st.io) :
    elfhdr frame st = some (.ok (Elfhdr.ofBytes file), st) := by
  have he : Elfhdr.ofBytes (st.io.stack.from' frame.elf) = Elfhdr.ofBytes file :=
    Elfhdr.ofBytes_congr h.elf
  unfold elfhdr
  rw [Code.bind_ok (rfl : (Code.get : M FileSide _) st = _), he]
  rfl

/-- **A program header** is read beside the header of the program. -/
theorem readProghdr_run {i : ℕ} (junk : Bytes)
    (hB : Building D I F r file (Reading dev fd ino size file frame) done st)
    (hP : Program file size) (hroom : ∀ n, room n = true) (hi : i < (Elfhdr.ofBytes file).ePhnum) :
    ∃ st',
      readProghdr dev room junk frame fd ((Elfhdr.ofBytes file).ePhoff + i * sizeofProghdr) st =
        some (.ok (phdr file i), st') ∧
      Building D I F r file (Reading dev fd ino size file frame) done st' := by
  obtain ⟨off, hoff⟩ : ∃ off, off = (Elfhdr.ofBytes file).ePhoff + i * sizeofProghdr := ⟨_, rfl⟩
  have hle : off + sizeofProghdr ≤ size := by
    have htable := hP.table
    have hmul := Nat.mul_le_mul_right sizeofProghdr (show i + 1 ≤ _ from hi)
    rw [Nat.add_one_mul] at hmul
    omega
  have hcap := hB.io.open'.cap
  have hmod : Int.bmod (off : ℤ) (2 ^ 64) = off := Int.bmod_eq_of_le (by omega) (by omega)
  have hfits : (Dst.stack frame.ph).Fits st sizeofProghdr :=
    ⟨frame.ph_access, fun p o he => by cases he⟩
  obtain ⟨io, hrun, hio, hstack⟩ :
      ∃ io, loadIcodeRead dev room junk fd (.stack frame.ph) sizeofProghdr
      off st = some (.ok (), { st with
        io := { io with stack := io.stack.copy frame.ph (file.from' off) sizeofProghdr }
        mallocs := st.mallocs + 1 }) ∧ OpenFile dev fd ino size file io ∧ io.stack = st.io.stack :=
    loadIcodeRead_run hB.io.open' hB.cur hle (by decide) (by decide) hfits hroom
  have hph :
      Proghdr.ofBytes ((io.stack.copy frame.ph (file.from' off) sizeofProghdr).from' frame.ph) =
      phdr file i := by
    rw [phdr, ← hoff]
    refine Proghdr.ofBytes_congr fun k hk => ?_
    rw [Bytes.from', Bytes.copy_of_mem (by omega) (by omega), Nat.add_sub_cancel_left]
  have helf : Reading dev fd ino size file frame
      { io with stack := io.stack.copy frame.ph (file.from' off) sizeofProghdr } := by
    refine ⟨⟨hio.sound, hio.opened, hio.regular, hio.acct, hio.length, hio.cap, hio.bytes⟩,
      fun k hk => ?_⟩
    have hd := frame.disjoint
    refine (Bytes.copy_of_not_mem (by omega)).trans ?_
    rw [hstack]
    exact hB.io.elf k hk
  refine ⟨{ st with
    io := { io with stack := io.stack.copy frame.ph (file.from' off) sizeofProghdr }
    mallocs := st.mallocs + 1 }, ?_, hB.space, hB.mm, hB.loaded, hB.pgdir, hB.cur, helf⟩
  unfold readProghdr
  rw [← hoff, hmod]
  refine (Code.bind_ok hrun).trans ((Code.bind_ok (rfl : (Code.get : M FileSide _) _ = _)).trans ?_)
  rw [hph]
  rfl

theorem loadSegments_run (junk : Bytes) (hP : Program file size) (hA : A.Complete)
    (hroom : ∀ n, room n = true) (hk : ∀ p ∈ F, Direct p) {k : ℕ}
    (hF : need file k ≤ F.card + 1) : ∀ n i (st : Load FileSide),
    i + n = (Elfhdr.ofBytes file).ePhnum →
    Building D I F r file (Reading dev fd ino size file frame) (segments file i) st →
    ∃ st', loadSegments A dev room junk frame fd (Elfhdr.ofBytes file).ePhoff n i st =
        some (.ok (), st') ∧
      Building D I F r file (Reading dev fd ino size file frame) (programSegments file) st' := by
  intro n
  induction n with
  | zero =>
    intro i st hi h
    rw [Nat.add_zero] at hi
    rw [hi] at h
    exact ⟨st, rfl, h⟩
  | succ n ih =>
    intro i st hi h
    obtain ⟨st1, hread, h1⟩ := readProghdr_run junk h hP hroom (show i < _ by omega)
    obtain ⟨st2, hload, h2⟩ : ∃ st2, loadSegment A dev room junk fd (phdr file i) st1 =
        some (.ok (), st2) ∧
        Building D I F r file (Reading dev fd ino size file frame) (segments file (i + 1)) st2 := by
      rw [segments_succ]
      by_cases ht : (phdr file i).pType = elfPtLoad
      · rw [if_pos ht]
        refine loadSegment_run h1 (fun ph hph => hP.ok ph ?_)
          (hP.ready hA hF (by omega) ht) hroom hk
          ht
        exact (segments_sublist (show i ≤ (Elfhdr.ofBytes file).ePhnum by omega)).subset hph
      · have hskip : loadSegment A dev room junk fd (phdr file i) st1 = some (.ok (), st1) := by
          unfold loadSegment
          rw [if_pos ht]
          rfl
        rw [if_neg ht, List.append_nil]
        exact ⟨st1, hskip, h1⟩
    obtain ⟨st3, hrun, h3⟩ := ih (i + 1) st2 (by omega) h2
    refine ⟨st3, ?_, h3⟩
    rw [loadSegments]
    exact (Code.bind_ok hread).trans ((Code.bind_ok hload).trans hrun)

/-- **The segments, and a page of the stack.** -/
theorem loadImage_run (junk : Bytes)
    (hB : Building D I F r file (Reading dev fd ino size file frame) (segments file 0) st)
    (hP : Program file size) (hA : A.Complete) (hroom : ∀ n, room n = true)
    (hk : ∀ p ∈ F, Direct p) (hF : need file 1 ≤ F.card + 1) :
    ∃ p st', loadImage A dev room junk frame fd st = some (.ok (), st') ∧
      Stacked D I F r file (Reading dev fd ino size file frame) 1 st' ∧
      Own st'.phys D I r (ustackTop / pgSize - 1) p
        (pteCreate p (pteV.setWidth 32 ||| pteUser.setWidth 32)) := by
  obtain ⟨st1, hseg, h1⟩ := loadSegments_run junk hP hA hroom hk hF
    (Elfhdr.ofBytes file).ePhnum 0 st (Nat.zero_add _) hB
  obtain ⟨st2, hmap, h2⟩ := h1.stack hP hroom
  obtain ⟨p, t, halloc, h3, hown⟩ := h2.alloc hP hA (by decide) hF
  refine ⟨p, _, ?_, h3, hown⟩
  unfold loadImage
  refine (Code.bind_ok (elfhdr_run hB.io)).trans ?_
  exact (Code.bind_ok hseg).trans ((Code.bind_ok hmap).trans (Code.bind_ok halloc))

end Ucore.Loader
