/-
  The two loaders make the same image.

  * `readElfhdr_run`: the header of the program is read;
  * `reaches_stacked`, `loadIcode_run`: `load_icode` of lab8 gets to the arguments with a loaded
    process, and then it is up to them;
  * `load_icode_image_iff`: with the one of lab5 it makes the image exactly if the arguments fit
    into a page.
-/
import Mathlib.Data.Finset.Max
import Ucore.Fs.FileRun
import Ucore.Lab5.LoadRun
import Ucore.Process.LoadArgs
import Ucore.Process.LoadSegment

namespace Ucore.Loader

open Pmm Vmm

variable {A B : Allocator} {dev : Device} {room room' : ℕ → Bool} {junk file : Bytes}
  {frame : StackFrame} {D I D' I' F : Finset ℕ} {boot boot' fd ino size r argc : ℕ}
  {kargv : ℕ → Bytes} {st st' : Load FileSide} {p lo : ℕ} {G : FileSide →
    Prop} {st5 : Load Unit} {done : List Proghdr}

/-- **The header of the program** is read. -/
theorem readElfhdr_run (junk : Bytes) (frame : StackFrame)
    (hB : Building D I F r file (OpenFile dev fd ino size file) done st)
    (hP : Program file size) (hroom : ∀ n, room n = true) :
    ∃ st', readElfhdr dev room junk frame fd st = some (.ok (), st') ∧
      Building D I F r file (Reading dev fd ino size file frame) done st' := by
  have hfits : (Dst.stack frame.elf).Fits st sizeofElfhdr :=
    ⟨frame.elf_access, fun p o he => by cases he⟩
  obtain ⟨io, hrun, hio, -⟩ : ∃ io, loadIcodeRead dev room junk fd (.stack frame.elf) sizeofElfhdr
      (0 : ℕ) st = some (.ok (), { st with
        io := { io with stack := io.stack.copy frame.elf (file.from' 0) sizeofElfhdr }
        mallocs := st.mallocs + 1 }) ∧ OpenFile dev fd ino size file io ∧ _ :=
    loadIcodeRead_run hB.io hB.cur ((Nat.zero_add _).trans_le hP.header) (by decide)
      (by decide) hfits
      hroom
  have hread : Reading dev fd ino size file frame
      { io with stack := io.stack.copy frame.elf (file.from' 0) sizeofElfhdr } := by
    refine ⟨⟨hio.sound, hio.opened, hio.regular, hio.acct, hio.length, hio.cap, hio.bytes⟩,
      fun k hk => ?_⟩
    refine (Bytes.copy_of_mem (Nat.le_add_right _ _) (Nat.add_lt_add_left hk _)).trans ?_
    rw [Nat.add_sub_cancel_left, Bytes.from', Nat.zero_add]
  refine ⟨{ st with
    io := { io with stack := io.stack.copy frame.elf (file.from' 0) sizeofElfhdr }
    mallocs := st.mallocs + 1 }, ?_, hB.space, hB.mm, hB.loaded, hB.pgdir, hB.cur, hread⟩
  unfold readElfhdr
  refine (Code.bind_ok hrun).trans ((Code.bind_ok (elfhdr_run hread)).trans ?_)
  rw [if_neg (not_not.2 hP.magic)]
  rfl

/-! ## The stack of a loaded program -/

/-- The pages of the stack below the top one are not mapped. -/
theorem Stacked.topPage (h : Stacked D I F r file G 1 st)
    (ho : Own st.phys D I r (ustackTop / pgSize - 1) p (stackPte p)) (hP : Program file size)
    (hsatp : st.satp = r) : TopPage D I r p st where
  frames := h.space.frames
  root := h.space.root
  user := h.space.user
  own := ho
  below la h1 h2 := by
    have hlt : la < userTop := by
      unfold ustackTop at *
      omega
    rw [← Option.not_isSome_iff_eq_none, h.space.mapped la hlt, Finset.mem_union, mem_pagesOf,
      stackPages, Finset.mem_Ico]
    rintro (⟨ph, hph, hn⟩ | hn)
    · have hend := (hP.ok ph hph).bounds.2.2.1
      have hlast := (Finset.mem_Ico.1 hn).2
      unfold ustackTop ustackSize userTop pgSize at *
      omega
    · unfold ustackTop userTop pgSize at *
      omega
  areas := by
    obtain ⟨m, hm, ho, hmem⟩ := h.areas
    exact ⟨m, hm, ho, (hmem _).2 (.inr rfl)⟩
  satp := hsatp

/-- **What is stored in the top page** of the stack does not change the image. -/
theorem Stacked.stored (h : Stacked D I F r file G 1 st) (hs : Stored r lo ustackTop st st')
    (hP : Program file size) (hlo : ustackTop - pgSize ≤ lo) (hcur : st.curMm = true)
    (hsatp : st.satp = r) {tf : Trapframe} (he : tf.epc = (Elfhdr.ofBytes file).eEntry) :
    Image file 1 { st' with tf := tf } := by
  have hareas := hs.areas
  have hlookup := hs.lookup
  have hout := hs.outside
  obtain ⟨phys, mm, rfl⟩ := hs.same
  have hpg : st.pgdir = r := h.pgdir
  obtain ⟨m, hm, ho, hmem⟩ := h.areas
  obtain ⟨m', hm', ho', hl⟩ := hareas m hm ho
  refine ⟨fun ph hph la h1 h2 => ?_, fun la hla => ?_, ⟨m', hm', ho', fun v => ?_⟩, he, hcur,
    hsatp.trans hpg.symm⟩
  · have htop := (hP.ok ph hph).top
    have hlow : la < lo ∧ la < userTop := by
      unfold ustackTop ustackSize userTop pgSize at *
      omega
    exact (congrArg (phys.userByte · la) hpg).trans ((hout la hlow.2 (.inl hlow.1)).trans
      (h.loaded ph hph la h1 h2))
  · have hlook : phys.lookup st.pgdir la = st.phys.lookup r la := by
      rw [hpg]
      exact hlookup la hla
    exact (iff_of_eq (congrArg (fun o => o.isSome = true) hlook)).trans (h.space.mapped la hla)
  · rw [hl, hmem v]

/-! ## `load_icode` up to the arguments -/

/-- `load_icode` gets to the arguments, in the state `st'`. -/
def Reaches (A : Allocator) (dev : Device) (room : ℕ → Bool) (junk : Bytes) (boot : ℕ)
    (frame : StackFrame) (fd : ℕ) (st st' : Load FileSide) : Prop :=
  st.curMm = false ∧ ∃ st1 st2 st3 st4, createMm room st = some (.ok true, st1) ∧
    setupPgdir A boot st1 = some (.ok (), st2) ∧
    readElfhdr dev room junk frame fd st2 = some (.ok (), st3) ∧
    loadImage A dev room junk frame fd st3 = some (.ok (), st4) ∧ install st4 = some (.ok (), st')

theorem Reaches.loadIcode_eq (kargv : ℕ → Bytes)
    (h : Reaches A dev room junk boot frame fd st st') (hpos : 1 ≤ argc)
    (hargc : argc ≤ execMaxArgNum) :
    loadIcode A dev room junk boot frame fd argc kargv st = (do
      match ← Code.attempt (pushArgs argc kargv) with
      | .error e => badExec A boot e
      | .ok argvUser => do
        let elf ← elfhdr frame
        Code.modify fun s => { s with tf :=
          { epc := elf.eEntry, sp := argvUser, a0 := argc, a1 := argvUser
            status := (s.sstatus ||| sstatusSpie) &&& ~~~sstatusSpp } } : M FileSide Unit) st' := by
  obtain ⟨hc, st1, st2, st3, st4, hcreate, hsetup, helf, hload, hinst⟩ := h
  unfold loadIcode
  rw [Code.assert_bind ⟨hpos, hargc⟩, Code.bind_ok (rfl : (Code.get : M FileSide _) st = _),
    Code.assert_bind hc, Code.bind_ok hcreate, if_pos rfl, Code.attempt_bind hsetup]
  exact (Code.attempt_bind helf).trans ((Code.attempt_bind hload).trans (Code.bind_ok hinst))

/-- **`load_icode` of lab8** gets to the arguments with a loaded program, if memory suffices. -/
theorem reaches_stacked (junk : Bytes) (frame : StackFrame) (hP : Program file size)
    (hM : Suffices A room boot D I (need file 1) st.phys) (hk : ∀ p ∈ st.phys.free, Direct p)
    (ho : OpenFile dev fd ino size file st.io) (hc : st.curMm = false) :
    ∃ D' F r p st', Reaches A dev room junk boot frame fd st st' ∧
      Stacked D' I F r file (Reading dev fd ino size file frame) 1 st' ∧
      TopPage D' I r p st' ∧ st'.curMm = true := by
  obtain ⟨st0, hst0⟩ : ∃ st0 : Load FileSide, st0 = { st with
      mm := some mmCreate
      mmCount := 0
      mallocs := st.mallocs + 1 } := ⟨_, rfl⟩
  have hcreate : createMm room st = some (.ok true, st0) := hst0 ▸ createMm_run hM.room
  have hM0 : Suffices A room boot D I (need file 1) st0.phys := hst0 ▸ hM
  have hc0 : st0.curMm = false := hst0 ▸ hc
  have ho0 : OpenFile dev fd ino size file st0.io := hst0 ▸ ho
  have hk0 : ∀ p ∈ st0.phys.free, Direct p := hst0 ▸ hk
  obtain ⟨r, t, hsetup, hB, hcard, hsub⟩ : ∃ (r : ℕ) (t : Phys),
      setupPgdir A boot st0 = some (.ok (), { st0 with phys := t, pgdir := r }) ∧
      Building (insert r D) I t.free r file (OpenFile dev fd ino size file) (segments file 0)
        { st0 with phys := t, pgdir := r } ∧ _ :=
    Building.start hM0 (by rw [hst0]) hc0 ho0
  obtain ⟨st1, helf, hB1⟩ := readElfhdr_run junk frame hB hP hM.room
  obtain ⟨p, st2, hload, hS, hown⟩ := loadImage_run junk hB1 hP hM.complete hM.room
    (fun p hp => hk0 p (hsub hp)) (Nat.succ_le_succ hcard)
  obtain ⟨st3, hst3⟩ : ∃ st3 : Load FileSide, st3 = { st2 with
      mmCount := st2.mmCount + 1
      curMm := true
      satp := st2.pgdir } := ⟨_, rfl⟩
  have hinst : install st2 = some (.ok (), st3) := hst3 ▸ rfl
  have hst : Stacked (insert r D) I t.free r file (Reading dev fd ino size file frame) 1 st3 :=
    hst3 ▸ ⟨hS.space, hS.loaded, hS.areas, hS.pgdir, hS.io⟩
  have hown3 : Own st3.phys (insert r D) I r (ustackTop / pgSize - 1) p (stackPte p) := hst3 ▸ hown
  have hsatp3 : st3.satp = r := hst3 ▸ hS.pgdir
  exact ⟨_, _, r, p, st3, ⟨hc, st0, _, st1, st2, hcreate, hsetup, helf, hload, hinst⟩, hst,
    hst.topPage hown3 hP hsatp3, hst3 ▸ rfl⟩

/-- Then it is up to the arguments: if they do not fit into the top page, it does not return. -/
theorem Reaches.loadIcode_none (h : Reaches A dev room junk boot frame fd st st')
    (ht : TopPage D I r p st') (hpos : 1 ≤ argc) (hargc : argc ≤ execMaxArgNum)
    (hbig : pgSize < argsSize argc kargv) :
    loadIcode A dev room junk boot frame fd argc kargv st = none := by
  have hnone := pushArgs_none ht hpos hargc
    (not_le.1 fun hle => absurd ((argsSp_iff hargc).1 hle) (not_le.2 hbig))
  rw [h.loadIcode_eq kargv hpos hargc]
  exact Code.bind_none (by rw [Code.attempt, hnone]; rfl)

theorem loadIcode_run (junk : Bytes) (frame : StackFrame) (kargv : ℕ → Bytes)
    (hP : Program file size)
    (hM : Suffices A room boot D I (need file 1) st.phys) (hk : ∀ p ∈ st.phys.free, Direct p)
    (ho : OpenFile dev fd ino size file st.io) (hc : st.curMm = false) (hpos : 1 ≤ argc)
    (hargc : argc ≤ execMaxArgNum) :
    (argsSize argc kargv ≤ pgSize →
      ∃ st', loadIcode A dev room junk boot frame fd argc kargv st = some (.ok (), st') ∧
        Image file 1 st') ∧
    (pgSize < argsSize argc kargv →
      loadIcode A dev room junk boot frame fd argc kargv st = none) := by
  obtain ⟨D', F', r, p, st3, hreach, hst, htop, hcur⟩ := reaches_stacked junk frame hP hM hk ho hc
  refine ⟨fun hfit => ?_, hreach.loadIcode_none htop hpos hargc⟩
  have hin := (argsSp_iff hargc).2 hfit
  obtain ⟨st4, u, hargs, -, hs4, -⟩ := pushArgs_run kargv htop hargc hin
  have hio4 : Reading dev fd ino size file frame st4.io := by
    obtain ⟨phys, mm, rfl⟩ := hs4.same
    exact hst.io
  have hnext : loadIcode A dev room junk boot frame fd argc kargv st = _ :=
    (hreach.loadIcode_eq kargv hpos hargc).trans
      ((Code.attempt_bind hargs).trans (Code.bind_ok (elfhdr_run hio4)))
  exact ⟨_, hnext, hst.stored hs4 hP hin hcur htop.satp rfl⟩

/-- **Two loaders, one image.**  If memory suffices, `load_icode` of lab5 and that of lab8 both make
    the image of a program, if and only if the arguments take no more than a page. -/
theorem load_icode_image_iff (hP : Program file size)
    (hM5 : Suffices B room' boot' D' I' (need file 4) st5.phys) (hc5 : st5.curMm = false)
    (hM : Suffices A room boot D I (need file 1) st.phys) (hk : ∀ p ∈ st.phys.free, Direct p)
    (ho : OpenFile dev fd ino size file st.io) (hc : st.curMm = false) (hpos : 1 ≤ argc)
    (hargc : argc ≤ execMaxArgNum) :
    ((∃ st', Lab5.loadIcode B room' boot' file st5 = some (.ok (), st') ∧ Image file 4 st') ∧
        ∃ st', loadIcode A dev room junk boot frame fd argc kargv st = some (.ok (), st') ∧
          Image file 1 st') ↔
      argsSize argc kargv ≤ pgSize := by
  obtain ⟨hfit, hbig⟩ := loadIcode_run junk frame kargv hP hM hk ho hc
    hpos hargc
  constructor
  · rintro ⟨-, st', hrun, -⟩
    by_contra hlt
    rw [hbig (not_le.1 hlt)] at hrun
    cases hrun
  · exact fun hle => ⟨Lab5.loadIcode_run hP hM5 hc5, hfit hle⟩

/-! ## A program -/

/-- A program of 121 bytes with one segment: its last byte, and a zero. -/
def tinyElf : Bytes :=
  let header := (((Bytes.setWord (fun _ => 0) 4 0 elfMagic).setWord 8 24 0x800078).setWord 8 32
    sizeofElfhdr).setWord 2 56 1
  let segment := ((((header.setWord 4 64 elfPtLoad).setWord 4 68 5).setWord 8 72 120).setWord 8 80
    0x800078).setWord 8 96 1
  (segment.setWord 8 104 2).setWord 1 120 0x13

theorem program_tinyElf : Program tinyElf 121 := by
  have hsegs : programSegments tinyElf = [⟨1, 5, 120, 0x800078, 1, 2⟩] := by decide +kernel
  refine ⟨by decide, by decide +kernel, by decide +kernel, fun ph hph => ?_, ?_⟩
  · rw [hsegs, List.mem_singleton] at hph
    subst hph
    exact ⟨by decide, by decide, by decide, by decide, by decide⟩
  · rw [hsegs]
    exact List.pairwise_singleton _ _

/-- The lowest free page. -/
def lowest : Allocator where
  pick _ n F := if h : n = 1 ∧ F.Nonempty then some (F.min' h.2) else none
  mem := fun {t n F p} h q hp hq => by
    split at h
    · rename_i hn
      obtain rfl : q = p := by omega
      exact Option.some_inj.1 h ▸ F.min'_mem hn.2
    · cases h

theorem lowest_complete : lowest.Complete := fun _ F hF => by
  rw [lowest]
  simp [hF]

/-- Sixteen free pages, behind an empty page directory. -/
def sixteenPages : Phys := ⟨0x80211, fun _ _ => 0, fun _ => 0, Finset.Ico 0x80201 0x80211, 0⟩

theorem suffices_sixteenPages {n : ℕ} (hn : n ≤ 16) :
    Suffices lowest (fun _ => true) 0x80200 ∅ PageSys.entries n sixteenPages where
  frames := by
    let role : ℕ → Role := fun p => if p ∈ sixteenPages.free then .free else .other
    have hrole : ∀ p x, role p = x → x = .free ∨ x = .other := fun p x hp => by
      by_cases h : p ∈ sixteenPages.free
      · exact .inl (hp.symm.trans (if_pos h))
      · exact .inr (hp.symm.trans (if_neg h))
    have hfree : ∀ p, p ∈ sixteenPages.free ↔ role p = .free := fun p => by
      by_cases h : p ∈ sixteenPages.free
      · exact iff_of_true h (if_pos h)
      · exact iff_of_false h fun hp => by
          rw [show role p = .other from if_neg h] at hp
          cases hp
    refine ⟨role,
      ⟨hfree, nofun, nofun, fun d r i hd => ?_, fun pt r i j hpt => ?_, fun d r i hd => ?_,
      fun pt r i j hpt => ?_, fun p hp => ?_, by decide⟩, fun p hp => ?_, fun p _ => rfl⟩
    · obtain h | h := hrole d _ hd <;> cases h
    · obtain h | h := hrole pt _ hpt <;> cases h
    · obtain h | h := hrole d _ hd <;> cases h
    · obtain h | h := hrole pt _ hpt <;> cases h
    · have hmem := (hfree p).2 ((hrole p _ rfl).resolve_right hp)
      exact (Finset.mem_Ico.1 hmem).2
    · obtain h | h := hrole p _ hp <;> cases h
  user la _ := PageSys.entries_mem la
  boot _ _ := entry_zero
  complete := lowest_complete
  room _ := rfl
  card := by
    rw [sixteenPages, Nat.card_Ico]
    exact hn

theorem direct_sixteenPages : ∀ p ∈ sixteenPages.free, Direct p := by
  intro p hp
  have h := Finset.mem_Ico.1 hp
  unfold Direct kva kernTop kernBase pgSize
  omega

/-- The file with the program, which has been written to it. -/
def tinyFs : Sfs := ((fileMachine soundDevice {1, 3}).run emptyFileImage
  [.loadInode 3, .io 3 tinyElf 0 121 true]).getD emptyFileImage

/-- The descriptor 0 is open on the file 3. -/
def sideOf (fs : Sfs) : FileSide where
  files := ⟨fun _ => ⟨.opened, true, false, 0, 0, some 3, 1⟩, fun _ => 1, fun _ => 1⟩
  fs := fs
  stack := fun _ => 0

theorem openFile_sideOf {fs : Sfs} (hr : RegularFile fs 3) (ha : ∃ I E, Acct I E fs)
    (hsize : (fs.din 3).size = size) (hcap : size ≤ 1036 * 4096)
    (hb : ∀ k < size, fs.byte 3 k = file k) : OpenFile soundDevice 0 3 size file (sideOf fs) :=
  ⟨fun ⟨_, _, h⟩ => h rfl, ⟨by decide, rfl, rfl, rfl, rfl, Int.zero_lt_one⟩, hr, ha,
    hsize, hcap, hb⟩

theorem reach_tinyFs : (fileMachine soundDevice {1, 3}).Reach tinyFs := by
  obtain ⟨s, hs⟩ : ∃ s, (fileMachine soundDevice {1, 3}).run emptyFileImage
      [.loadInode 3, .io 3 tinyElf 0 121 true] = some s := by
    refine Option.isSome_iff_exists.1 ?_
    decide +kernel
  have heq : tinyFs = s := by
    rw [tinyFs, hs]
    rfl
  have h0 : (fileMachine soundDevice {1, 3}).Init emptyFileImage :=
    ⟨mounted_emptyFileImage, whole_emptyFileImage⟩
  exact heq ▸ (Machine.Reach.init h0).run hs

theorem openFile_tinyFs : OpenFile soundDevice 0 3 121 tinyElf (sideOf tinyFs) := by
  have hinv : ∃ E, Acct {1, 3} E tinyFs ∧ Whole {1, 3} tinyFs := by
    refine reach_tinyFs.preserved (I := fun s => ∃ E, Acct {1, 3} E s ∧ Whole {1, 3} s)
      (fun s hs => ⟨∅, hs.1.acct, hs.2⟩) fun s op t ⟨E, ha, hw⟩ hl hs => ?_
    obtain ⟨⟨E', -, -, ha'⟩, hw'⟩ := step_kept ha hl.1 hs
    exact ⟨E', ha', hw' hw⟩
  obtain ⟨E, ha, hw⟩ := hinv
  have hc : tinyFs.cached 3 = true := by decide +kernel
  have ht : (tinyFs.din 3).type = sfsTypeFile ∧ (tinyFs.din 3).blocks = 1 ∧
      (tinyFs.din 3).size = 121 := by decide +kernel
  have hb : ∀ k < 121, tinyFs.byte 3 k = tinyElf k := by decide +kernel
  have hreg : RegularFile tinyFs 3 := by
    refine ⟨hc, ht.1, by rw [ht.2.1, ht.2.2], fun k h1 h2 => hw 3 (by decide) k h1 ?_⟩
    rwa [Acct.dinOf_of_cached hc]
  exact openFile_sideOf hreg ⟨_, E, ha⟩ ht.2.2 (by decide +kernel) hb

/-- Before `load_icode`. -/
def tinyState {Io : Type} (io : Io) : Load Io where
  phys := sixteenPages
  mm := none
  mmCount := 0
  pgdir := 0
  mallocs := 0
  curMm := false
  satp := 0x80200
  sstatus := 0
  tf := ⟨0, 0, 0, 0, 0⟩
  io := io

def tinyFrame : StackFrame :=
  ⟨0xFFFFFFFFC0210000, 0xFFFFFFFFC0210040, by decide, by decide, by decide⟩

/-- The program is loaded twice, once with an empty argument. -/
theorem load_icode_image_iff_tiny :
    (∃ st', Lab5.loadIcode lowest (fun _ => true) 0x80200 tinyElf (tinyState ()) =
        some (.ok (), st') ∧ Image tinyElf 4 st') ∧
      ∃ st', loadIcode lowest soundDevice (fun _ => true) (fun _ => 0) 0x80200 tinyFrame 0 1
        (fun _ _ => 0) (tinyState (sideOf tinyFs)) = some (.ok (), st') ∧ Image tinyElf 1 st' :=
  (load_icode_image_iff program_tinyElf (suffices_sixteenPages (by decide +kernel)) rfl
    (suffices_sixteenPages (by decide +kernel)) direct_sixteenPages openFile_tinyFs rfl le_rfl
    (by decide)).2 (by decide +kernel)

theorem strnlen_full : ∀ (n : ℕ) (s : Bytes), (∀ k < n, s k ≠ 0) → strnlen s n = n := by
  intro n
  induction n with
  | zero => exact fun _ _ => rfl
  | succ n ih =>
    intro s h
    rw [strnlen, if_neg (h 0 n.succ_pos), ih (s.from' 1) fun k hk => h (1 + k) (by omega)]

theorem argsSize_full {arg : Bytes} (h : strnlen arg execMaxArgLen = execMaxArgLen) :
    pgSize < argsSize 1 fun _ => arg := by
  have hsize : argsSize 1 (fun _ => arg) = (argSize arg + 7) / 8 * 8 + 16 := by
    simp [argsSize]
  rw [hsize, argSize, h]
  decide

/-- An argument of 4095 letters. -/
def longArgument : Bytes := fun k => if k < execMaxArgLen then 97 else 0

theorem strnlen_longArgument : strnlen longArgument execMaxArgLen = execMaxArgLen :=
  strnlen_full execMaxArgLen longArgument fun k hk => by
    rw [longArgument, if_pos hk]
    decide

/-- **With one argument of 4095 letters** the program is not loaded. -/
theorem load_icode_long_argument : Program tinyElf 121 ∧
    Suffices lowest (fun _ => true) 0x80200 ∅ PageSys.entries (need tinyElf 4) sixteenPages ∧
    OpenFile soundDevice 0 3 121 tinyElf (sideOf tinyFs) ∧
      strnlen longArgument execMaxArgLen = execMaxArgLen ∧
    loadIcode lowest soundDevice (fun _ => true) (fun _ => 0) 0x80200 tinyFrame 0 1
      (fun _ => longArgument) (tinyState (sideOf tinyFs)) = none := by
  have hM : ∀ k ≤ 4, Suffices lowest (fun _ => true) 0x80200 ∅ PageSys.entries (need tinyElf k)
      sixteenPages := fun k hk =>
    suffices_sixteenPages ((need_mono hk).trans (by decide +kernel))
  refine ⟨program_tinyElf, hM 4 le_rfl, openFile_tinyFs, strnlen_longArgument,
    (loadIcode_run _ _ _ program_tinyElf
      (hM 1 (by decide)) direct_sixteenPages openFile_tinyFs rfl le_rfl
      (by decide)).2 (argsSize_full strnlen_longArgument)⟩

end Ucore.Loader
