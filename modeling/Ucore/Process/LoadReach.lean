/-
  What `load_icode` has done when it gets to the arguments, for any file that is taken for a
    program.

  * `Loading`: only pages in the areas of the process are mapped;
  * `Kept`: reading the file into a page, or to the kernel stack, does not change that;
  * `loadSegments_loading`: loading the segments does not, either;
  * `Reaches.topPage`: so of the stack only the top page is mapped;
  * `exec_args`: the arguments are laid out on the stack exactly if they fit into that page.
-/
import Ucore.Process.LoadRun

namespace Ucore.Loader

open Pmm Vmm

variable {A : Allocator} {dev : Device} {room : ℕ → Bool} {junk : Bytes} {frame : StackFrame}
  {D I : Finset ℕ} {r p boot fd argc : ℕ} {m : MmStruct} {v : VmaStruct} {o : Option ℕ} {dst : Dst}
  {st st' : Load FileSide} {kargv : ℕ → Bytes}

/-- The process that is built has the areas of `m`, and only pages in them are mapped. -/
structure Loading (D I : Finset ℕ) (r : ℕ) (m : MmStruct) (st : Load FileSide) : Prop where
  frames : ∃ role, Frames st.phys D I role 0
  root : r ∈ D
  user : ∀ la < userTop, pdx1 la ∈ I
  pgdir : st.pgdir = r
  cur : st.curMm = false
  mm : st.mm = some m
  ordered : m.Ordered
  covered : ∀ la < userTop, (st.phys.lookup r la).isSome → ∃ v ∈ m.mmapList, v.Has la

/-- And the frame `o`, if there is one, is mapped. -/
def Kept (D I : Finset ℕ) (r : ℕ) (m : MmStruct) (o : Option ℕ) (st : Load FileSide) : Prop :=
  Loading D I r m st ∧ ∀ p, o = some p → ∃ z ∈ slots D I, st.phys.frame z = some p

namespace Kept

theorem withIo (h : Kept D I r m o st) (io : FileSide) : Kept D I r m o { st with io := io } :=
  ⟨⟨h.1.frames, h.1.root, h.1.user, h.1.pgdir, h.1.cur, h.1.mm, h.1.ordered, h.1.covered⟩, h.2⟩

theorem withMallocs (h : Kept D I r m o st) (n : ℕ) : Kept D I r m o { st with mallocs := n } :=
  ⟨⟨h.1.frames, h.1.root, h.1.user, h.1.pgdir, h.1.cur, h.1.mm, h.1.ordered, h.1.covered⟩, h.2⟩

/-- A write to the frame. -/
theorem store (h : Kept D I r m (some p) st) (off : ℕ) (src : Bytes) (len : ℕ) :
    Kept D I r m (some p) { st with phys := st.phys.store p off src len } := by
  obtain ⟨h, hp⟩ := h
  obtain ⟨z, hz, hpz⟩ := hp p rfl
  obtain ⟨role, hF⟩ := h.frames
  obtain ⟨hF', hpte⟩ := hF.store (hF.frame_user hz hpz) off src len
  refine ⟨⟨⟨role, hF'⟩, h.root, h.user, h.pgdir, h.cur, h.mm, h.ordered, fun la hla hsome => ?_⟩,
    fun q hq => ?_⟩
  · have hlook : (st.phys.store p off src len).lookup r la = st.phys.lookup r la :=
      hpte _ (slotOf_mem h.root (h.user la hla))
    exact h.covered la hla (hlook ▸ hsome)
  · obtain rfl := Option.some.inj hq
    exact ⟨z, hz, (congrArg (Option.map ptePage) (hpte z hz)).trans hpz⟩

end Kept

/-! ## Reading -/

/-- The page that is read into. -/
def Dst.page? : Dst → Option ℕ
  | .stack _ => none
  | .page p _ => some p

theorem Dst.page?_add (n : ℕ) : (dst.add n).page? = dst.page? := by
  cases dst <;> rfl

theorem keeps_onFiles {α : Type} (x : FileCode ℕ α) : Code.Keeps (Kept D I r m o) (onFiles x) :=
  Code.Keeps.on fun _ _ h => h.withIo _

theorem keeps_onFs {α : Type} (x : K α) : Code.Keeps (Kept D I r m o) (onFs x) :=
  Code.Keeps.on fun _ _ h => h.withIo _

theorem keeps_kmalloc : Code.Keeps (Kept D I r m o) (kmalloc room : M FileSide Bool) :=
  .bind .get fun _ => .bind (.modify fun _ h => h.withMallocs _) fun _ => .pure _

theorem keeps_memcpy (off : ℕ) (src : Bytes) (len : ℕ) :
    Code.Keeps (Kept D I r m (some p)) (memcpy p off src len) := by
  refine .bind (fun s t u hs h => ?_) fun _ => .bind (.assert _) fun _ =>
    .modify fun s h => h.store off src len
  obtain ⟨phys, hrun, rfl⟩ := Code.on_eq_some.1 h
  have heq : phys = s.phys := by
    unfold kaddr at hrun
    exact (Code.assert_eq_some.1 hrun).2.2
  exact heq ▸ hs

theorem keeps_memcpyDst (src : Bytes) (len : ℕ) :
    Code.Keeps (Kept D I r m dst.page?) (memcpyDst dst src len) := by
  cases dst with
  | stack a => exact .modify fun _ h => h.withIo _
  | page p off => exact keeps_memcpy off src len

/-- While `current->mm` is `NULL`, the check does not look at the areas. -/
theorem keeps_copyToDst (src : Bytes) (len : ℕ) :
    Code.Keeps (Kept D I r m dst.page?) (copyToDst dst src len) := by
  refine .bind (.on fun s mm h => ?_) fun _ =>
    .ite (.bind (keeps_memcpyDst src len) fun _ => .pure _) (.pure _)
  rw [h.1.cur]
  exact h

theorem keeps_fileRead (buffer : Bytes) (len : ℕ) :
    Code.Keeps (Kept D I r m o) (fileRead dev fd buffer len) := by
  refine .bind (.attempt (keeps_onFiles _)) fun ret => ?_
  cases ret with
  | error e => exact .pure _
  | ok file =>
    refine .ite (.pure _) ?_
    cases file.node with
    | none => exact .panic
    | some ino => exact .bind (keeps_onFs _) fun _ => .bind (keeps_onFiles _) fun _ => .pure _

theorem keeps_readLoop : ∀ (n : ℕ) (dst : Dst) (len copied : ℕ) (buffer : Bytes),
    Code.Keeps (Kept D I r m dst.page?) (readLoop dev fd n dst len copied buffer) := by
  intro n
  induction n with
  | zero => exact fun _ _ _ _ => .panic
  | succ n ih =>
    intro dst len copied buffer
    refine .ite (.pure _) (.bind (keeps_fileRead _ _) fun c => ?_)
    obtain ⟨buffer, alen, ret⟩ := c
    refine .ite (.pure _)
      (.bind (keeps_copyToDst _ _) fun _ => .ite (.bind (.assert _) fun _ => ?_) ?_)
    · cases ret with
      | error e => exact .pure _
      | ok _ => exact Dst.page?_add alen ▸ ih (dst.add alen) _ _ _
    · cases ret <;> exact .pure _

theorem keeps_sysfileRead (len : ℕ) :
    Code.Keeps (Kept D I r m dst.page?) (sysfileRead dev room junk fd dst len) := by
  have htest : Code.Keeps (Kept D I r m dst.page?) (fileTestfd fd) := by
    refine .bind (.attempt (keeps_onFiles _)) fun ret => ?_
    cases ret <;> exact .pure _
  refine .ite (.pure _) (.bind htest fun _ => .ite (.bind keeps_kmalloc fun _ => .ite
    (.bind (keeps_readLoop _ _ _ _ _) fun c => .ite (.pure _) ?_) (.throw _)) (.throw _))
  cases c.2 with
  | error e => exact .throw _
  | ok _ => exact .pure _

theorem keeps_sysfileSeek (pos : ℤ) : Code.Keeps (Kept D I r m o) (sysfileSeek dev fd pos) := by
  refine .bind (keeps_onFiles _) fun file => ?_
  cases file.node with
  | none => exact .panic
  | some ino => exact .bind (.attempt (keeps_onFs _)) fun _ => keeps_onFiles _

/-- **Reading the file** leaves the page table and the areas alone. -/
theorem keeps_loadIcodeRead (dst : Dst) (len : ℕ) (offset : ℤ) :
    Code.Keeps (Kept D I r m dst.page?) (loadIcodeRead dev room junk fd dst len offset) :=
  .bind (keeps_sysfileSeek _) fun _ => .bind (keeps_sysfileRead _) fun _ => .ite
    (.throw _) (.pure _)

theorem keeps_readPage (ph : Proghdr) (cur : ℕ) :
    Code.Keeps (Kept D I r m (some p)) (readPage dev room junk fd ph cur p) := by
  have hread (off len : ℕ) (offset : ℤ) : Code.Keeps (Kept D I r m (some p))
      (loadIcodeRead dev room junk fd (.page p off) len offset) :=
    keeps_loadIcodeRead (.page p off) len offset
  refine .bind (keeps_memcpy _ _ _) fun _ => ?_
  exact .ite (hread _ _ _) (.pure _)

/-! ## Mapping -/

namespace Loading

theorem kept (h : Loading D I r m st) : Kept D I r m none st := ⟨h, nofun⟩

/-- **A page is mapped** in an area. -/
theorem alloc {la : ℕ} {perm : BitVec 32} (h : Loading D I r m st) (hla : la < userTop)
    (hperm : PermOk perm) (hv : v ∈ m.mmapList) (hin : ∀ a, a / pgSize = la / pgSize → v.Has a)
    (hrun : allocPage A la perm st = some (.ok (some p), st')) :
    Loading D I r m st' ∧
      Own st'.phys D I r (la / pgSize) p (pteCreate p (pteV.setWidth 32 ||| perm)) ∧
      (∀ a < userTop, a / pgSize ≠ la / pgSize → st'.phys.lookup r a = st.phys.lookup r a) ∧
      ∃ t, st' = { st with phys := t } := by
  have hon : onPhys (pgdirAllocPage A st.pgdir la perm) st = some (.ok (some p), st') := hrun
  obtain ⟨t, halloc, rfl⟩ := Code.on_eq_some.1 hon
  rw [h.pgdir] at halloc
  obtain ⟨role, hF⟩ := h.frames
  obtain ⟨role', hF', hu, hpte, hpage, hnew⟩ :=
    pgdirAllocPage_some hF h.root (h.user la hla) hperm halloc
  have hlook : ∀ a < userTop, t.lookup r a = if a / pgSize = la / pgSize then
      some (pteCreate p (pteV.setWidth 32 ||| perm)) else st.phys.lookup r a := fun a ha => by
    rw [← if_congr (page_index (r := r) ha hla).1 rfl rfl]
    exact hpte _ (slotOf_mem h.root (h.user a ha))
  refine ⟨⟨⟨role', hF'⟩, h.root, h.user, h.pgdir, h.cur, h.mm, h.ordered, fun a ha hsome => ?_⟩,
    ⟨(Nat.div_mul_le_self _ _).trans_lt hla, fun a ha he => ?_, hpage, fun z hz hp => ?_⟩,
    fun a ha hne => ?_, t, rfl⟩
  · by_cases he : a / pgSize = la / pgSize
    · exact ⟨v, hv, hin a he⟩
    · refine h.covered a ha ?_
      have := hlook a ha
      rw [if_neg he] at this
      exact this ▸ hsome
  · exact (hlook a ha).trans (if_pos he)
  · by_contra hno
    have hz' : z ≠ slotOf r la := fun he => hno ⟨la, hla, rfl, he⟩
    rw [Phys.frame, hpte z hz, if_neg hz'] at hp
    exact hnew z hz hp
  · exact (hlook a ha).trans (if_neg hne)

/-- **An area is inserted** that meets no other one. -/
theorem map {addr len : ℕ} {flags : BitVec 32} (h : Loading D I r m st)
    (hrun : mapArea room addr len flags st = some (.ok (), st')) :
    UserAccess (mapStart addr) (mapEnd addr len) ∧
      m.Fits ⟨mapStart addr, mapEnd addr len, flags⟩ ∧
      Loading D I r (m.insert ⟨mapStart addr, mapEnd addr len, flags⟩) st' ∧
      st'.phys = st.phys := by
  obtain ⟨a, st1, hmap, hmod⟩ := Code.bind_eq_ok.1 (Code.get_bind_eq_some.1 hrun)
  obtain ⟨-, rfl⟩ := Code.modify_eq_some.1 hmod
  obtain ⟨mm, hmm, rfl⟩ := Code.on_eq_some.1 hmap
  rw [h.mm, mmMap_run _ _ _ _ h.ordered] at hmm
  by_cases h1 : UserAccess (mapStart addr) (mapEnd addr len)
  · by_cases h2 : (∃ w ∈ m.mmapList, w.Has (mapStart addr)) ∨ room st.mallocs = false
    · rw [if_neg (not_not.2 h1)] at hmm
      obtain h2 | h2 := h2
      · rw [if_pos h2] at hmm
        cases hmm
      · rw [if_pos h2] at hmm
        split at hmm <;> cases hmm
    · obtain ⟨h2, h3⟩ := not_or.1 h2
      rw [if_neg (not_not.2 h1), if_neg h2, if_neg h3] at hmm
      by_cases h4 : m.Fits ⟨mapStart addr, mapEnd addr len, flags⟩
      · rw [if_pos h4] at hmm
        cases hmm
        refine ⟨h1, h4, ⟨h.frames, h.root, h.user, h.pgdir, h.cur, rfl, h.ordered.insert h4,
          fun la hla hsome => ?_⟩, rfl⟩
        obtain ⟨w, hw, hin⟩ := h.covered la hla hsome
        exact ⟨w, mem_insert.2 (.inr hw), hin⟩
      · rw [if_neg h4] at hmm
        cases hmm
  · rw [if_pos h1] at hmm
    cases hmm

end Loading

/-! ## Segments -/

theorem pageLoop_loading {ph : Proghdr} {perm : BitVec 32} (hperm : PermOk perm)
    (hv : v ∈ m.mmapList) (hend : v.vmEnd % pgSize = 0) (htop : v.vmEnd ≤ userTop) :
    ∀ n cur (st : Load FileSide), Loading D I r m st → v.vmStart ≤ cur → cur % pgSize = 0 →
    pageLoop A dev room junk fd ph perm v.vmEnd n cur st = some (.ok (), st') →
    Loading D I r m st' := by
  intro n
  induction n with
  | zero => exact fun _ _ _ _ _ h => (Code.panic_eq_some.1 h).elim
  | succ n ih =>
    intro cur st h hlo hcur hrun
    rw [pageLoop] at hrun
    by_cases hlt : cur < v.vmEnd
    · rw [if_pos hlt] at hrun
      obtain ⟨o, st1, halloc, hrest⟩ := Code.bind_eq_ok.1 hrun
      cases o with
      | none => cases (Code.throw_eq_some.1 hrest).1
      | some p =>
        obtain ⟨h1, ho, -, -⟩ := h.alloc (hlt.trans_le htop) hperm hv (fun a ha => by
          unfold pgSize at *
          exact ⟨by omega, by omega⟩) halloc
        obtain ⟨⟨⟩, st2, hread, hloop⟩ := Code.bind_eq_ok.1 hrest
        have hk : Kept D I r m (some p) st1 := ⟨h1, fun q hq => by
          obtain rfl := Option.some.inj hq
          refine ⟨slotOf r cur, slotOf_mem h.root (h.user cur (hlt.trans_le htop)), ?_⟩
          have hent := ho.entry cur (hlt.trans_le htop) rfl
          exact (congrArg (Option.map ptePage) hent).trans (congrArg some ho.page)⟩
        refine ih (cur + pgSize) st2 (keeps_readPage ph cur st1 _ st2 hk hread).1
          (hlo.trans (Nat.le_add_right _ _)) ?_ hloop
        rw [Nat.add_mod_right, hcur]
    · rw [if_neg hlt] at hrun
      obtain ⟨-, rfl⟩ := Code.pure_eq_some.1 hrun
      exact h

/-- `mm_map` computes the range that the loop goes over. -/
theorem mapEnd_segment {a e : ℕ} (hu : UserAccess (mapStart (roundDown a pgSize))
    (mapEnd (roundDown a pgSize) ((roundUp e pgSize + 2 ^ 64 - roundDown a pgSize) % 2 ^ 64))) :
    mapStart (roundDown a pgSize) = roundDown a pgSize ∧ roundDown a pgSize % pgSize = 0 ∧
      mapEnd (roundDown a pgSize) ((roundUp e pgSize + 2 ^ 64 - roundDown a pgSize) % 2 ^ 64) =
        roundUp e pgSize ∧ roundUp e pgSize % pgSize = 0 := by
  have h1 : mapStart (roundDown a pgSize) = roundDown a pgSize := by
    unfold mapStart roundDown pgSize
    omega
  have h2 : roundDown a pgSize % pgSize = 0 := by
    unfold roundDown pgSize
    omega
  have h3 : roundUp e pgSize % pgSize = 0 ∧ roundUp e pgSize < 2 ^ 64 := by
    unfold roundUp roundDown pgSize
    omega
  have h4 : roundDown a pgSize < 2 ^ 64 := by
    obtain ⟨-, hlt, htop⟩ := hu
    rw [h1] at hlt
    unfold userTop at htop
    omega
  refine ⟨h1, h2, ?_, h3.1⟩
  generalize roundUp e pgSize = x at *
  generalize roundDown a pgSize = y at *
  unfold mapEnd roundUp roundDown pgSize at *
  omega

theorem loadSegment_loading {ph : Proghdr} (h : Loading D I r m st)
    (hrun : loadSegment A dev room junk fd ph st = some (.ok (), st')) :
    ∃ m', Loading D I r m' st' := by
  unfold loadSegment at hrun
  split at hrun
  · obtain ⟨-, rfl⟩ := Code.pure_eq_some.1 hrun
    exact ⟨m, h⟩
  · split at hrun
    · cases (Code.throw_eq_some.1 hrun).1
    · obtain ⟨⟨⟩, st1, hmap, hloop⟩ := Code.bind_eq_ok.1 hrun
      obtain ⟨hu, -, h1, -⟩ := h.map hmap
      obtain ⟨e1, e2, e3, e4⟩ := mapEnd_segment hu
      rw [e1, e3] at hu h1
      have hin := mem_insert.2 (.inl rfl : VmaStruct.mk (roundDown ph.pVa pgSize)
        (roundUp ((ph.pVa + ph.pMemsz) % 2 ^ 64) pgSize) (segFlags ph.pFlags) = _ ∨ _ ∈ m.mmapList)
      exact ⟨_,
        pageLoop_loading (permOk_segPerm _) hin e4 hu.2.2 _ _ st1 h1 (Nat.le_refl _) e2 hloop⟩

theorem loadSegments_loading {phoff : ℕ} : ∀ n i m (st : Load FileSide), Loading D I r m st →
    loadSegments A dev room junk frame fd phoff n i st = some (.ok (), st') →
    ∃ m', Loading D I r m' st' := by
  intro n
  induction n with
  | zero =>
    intro i m st h hrun
    obtain ⟨-, rfl⟩ := Code.pure_eq_some.1 hrun
    exact ⟨m, h⟩
  | succ n ih =>
    intro i m st h hrun
    rw [loadSegments] at hrun
    obtain ⟨ph, st1, hread, hrest⟩ := Code.bind_eq_ok.1 hrun
    obtain ⟨⟨⟩, st2, hseg, hnext⟩ := Code.bind_eq_ok.1 hrest
    have hkeep : Code.Keeps (Kept D I r m none) (readProghdr dev room junk frame fd
        (phoff + i * sizeofProghdr)) :=
      .bind (keeps_loadIcodeRead (.stack frame.ph) _ _) fun _ => .bind .get fun _ => .pure _
    obtain ⟨m', h2⟩ := loadSegment_loading (hkeep st _ st1 h.kept hread).1 hseg
    exact ih (i + 1) m' st2 h2 hnext

/-! ## The stack -/

theorem createMm_true (hrun : createMm room st = some (.ok true, st')) :
    st'.phys = st.phys ∧ st'.mm = some mmCreate ∧ st'.curMm = st.curMm := by
  obtain ⟨b, s, hk, hrest⟩ := Code.bind_eq_ok.1 hrun
  obtain ⟨⟨⟩, s', hmod, hret⟩ := Code.bind_eq_ok.1 (Code.get_bind_eq_some.1 hk)
  obtain ⟨-, rfl⟩ := Code.modify_eq_some.1 hmod
  obtain ⟨-, rfl⟩ := Code.pure_eq_some.1 hret
  cases b with
  | false => cases (Code.pure_eq_some.1 hrest).1
  | true =>
    obtain ⟨⟨⟩, s'', hmod, hret⟩ := Code.bind_eq_ok.1 hrest
    obtain ⟨-, rfl⟩ := Code.modify_eq_some.1 hmod
    obtain ⟨-, rfl⟩ := Code.pure_eq_some.1 hret
    exact ⟨rfl, rfl, rfl⟩

/-- **A new page directory** maps no page of a user. -/
theorem setupPgdir_loading (hF : ∃ role, Frames st.phys D I role 0)
    (hi : ∀ la < userTop, pdx1 la ∈ I) (hboot : ∀ i ∈ I, entry (st.phys.word boot i) = none)
    (hm : st.mm = some mmCreate) (hc : st.curMm = false)
    (hrun : setupPgdir A boot st = some (.ok (), st')) :
    ∃ r, Loading (insert r D) I r mmCreate st' := by
  obtain ⟨role, hF⟩ := hF
  obtain ⟨o, st1, halloc, hrest⟩ := Code.bind_eq_ok.1 hrun
  obtain ⟨phys, hpick, rfl⟩ := Code.on_eq_some.1 halloc
  rw [allocPages_run] at hpick
  cases o with
  | none => cases (Code.throw_eq_some.1 hrest).1
  | some r =>
    obtain ⟨⟨⟩, st2, hkaddr, hmod⟩ := Code.bind_eq_ok.1 hrest
    obtain ⟨-, rfl⟩ := Code.modify_eq_some.1 hmod
    obtain ⟨phys', hk, rfl⟩ := Code.on_eq_some.1 hkaddr
    unfold kaddr at hk
    obtain ⟨-, -, rfl⟩ := Code.assert_eq_some.1 hk
    cases hA : A.pick st.phys.time 1 st.phys.free with
    | none =>
      rw [hA] at hpick
      cases hpick
    | some q =>
      rw [hA] at hpick
      cases hpick
      have hroot := hF.addRoot (w := st.phys.word boot) (A.pick_mem hA) hboot
      refine ⟨r, ⟨_, hroot⟩, Finset.mem_insert_self _ _, hi, rfl, hc, hm,
        ⟨⟨.nil, by simp [mmCreate]⟩, nofun, rfl⟩, fun la hla hsome => ?_⟩
      have hdir :
          ((st.phys.tick.take r 1).setPage r (st.phys.word boot)).dirAt r (pdx1 la) = none := by
        rw [Phys.dirAt, Phys.word_setPage, if_pos rfl, hboot _ (hi la hla)]
      have hnone : ((st.phys.tick.take r 1).setPage r (st.phys.word boot)).lookup r la = none := by
        rw [Phys.lookup, Phys.pteAt, Phys.tableAt, hdir]
        rfl
      exact absurd (hnone ▸ hsome) (by simp)

/-- **Of the stack only the top page is mapped** when `load_icode` gets to the arguments. -/
theorem Reaches.topPage (h : Reaches A dev room junk boot frame fd st st')
    (hF : ∃ role, Frames st.phys D I role 0) (hi : ∀ la < userTop, pdx1 la ∈ I)
    (hboot : ∀ i ∈ I, entry (st.phys.word boot i) = none) :
    ∃ D' r p, TopPage D' I r p st' := by
  obtain ⟨hc, st1, st2, st3, st4, hcreate, hsetup, helf, hload, hinst⟩ := h
  obtain ⟨e1, e2, e3⟩ := createMm_true hcreate
  obtain ⟨r, h2⟩ := setupPgdir_loading (e1 ▸ hF) hi (e1 ▸ hboot) e2 (e3.trans hc) hsetup
  have hkeep : Code.Keeps (Kept (insert r D) I r mmCreate none)
      (readElfhdr dev room junk frame fd) :=
    .bind (keeps_loadIcodeRead (.stack frame.elf) _ _) fun _ =>
      .bind (.bind .get fun _ => .pure _) fun _ => .ite (.throw _) (.pure _)
  have h3 := (hkeep st2 _ st3 h2.kept helf).1
  obtain ⟨elf, s, hget, hload⟩ := Code.bind_eq_ok.1 hload
  have hkeep' : Code.Keeps (Kept (insert r D) I r mmCreate none) (elfhdr frame) :=
    .bind .get fun _ => .pure _
  have h4 := (hkeep' st3 _ s h3.kept hget).1
  obtain ⟨⟨⟩, s5, hsegs, hload⟩ := Code.bind_eq_ok.1 hload
  obtain ⟨m5, h5⟩ := loadSegments_loading _ _ _ _ h4 hsegs
  obtain ⟨⟨⟩, s6, hmap, hload⟩ := Code.bind_eq_ok.1 hload
  obtain ⟨-, hfit, h6, hphys⟩ := h5.map hmap
  have e1 : mapStart (ustackTop - ustackSize) = ustackTop - ustackSize := by decide
  have e2 : mapEnd (ustackTop - ustackSize) ustackSize = ustackTop := by decide
  rw [e1, e2] at hfit h6
  obtain ⟨o, s7, halloc, hend⟩ := Code.bind_eq_ok.1 hload
  cases o with
  | none => cases (Code.throw_eq_some.1 hend).1
  | some p =>
    obtain ⟨-, rfl⟩ := Code.pure_eq_some.1 hend
    obtain ⟨-, rfl⟩ := Code.modify_eq_some.1 hinst
    have hin : stackArea ∈ (m5.insert stackArea).mmapList := mem_insert.2 (.inl rfl)
    have hdiv : (ustackTop - pgSize) / pgSize = ustackTop / pgSize - 1 := by decide
    obtain ⟨h7, ho, hlook, t, rfl⟩ := h6.alloc (by decide : ustackTop - pgSize < userTop)
      (by decide : PermOk (pteUser.setWidth 32)) hin (fun a ha => by
        have hbounds : ustackTop - ustackSize ≤ a ∧ a < ustackTop := by
          unfold ustackTop ustackSize userTop pgSize at *
          omega
        exact hbounds) halloc
    rw [hdiv] at ho hlook
    refine ⟨insert r D, r, p, h7.frames, h7.root, h7.user, ho, fun la h1 h2 => ?_,
      ⟨_, h7.mm, h7.ordered, hin⟩, h7.pgdir⟩
    have hlt : la < userTop := by
      unfold ustackTop at h2
      omega
    -- before, no page of the stack was mapped: its area meets no other one
    refine (hlook la hlt (by unfold ustackTop userTop pgSize at *; omega)).trans ?_
    rw [hphys, ← Option.not_isSome_iff_eq_none]
    intro hsome
    obtain ⟨w, hw, h3, h4⟩ := h5.covered la hlt hsome
    exact hfit.2 w hw ⟨h3.trans_lt (h2.trans_le (Nat.sub_le _ _)), h1.trans_lt h4⟩

/-! ## The arguments of a process -/

/-- The arguments as the process finds them, which `load_icode` has put on its stack since `st`:
    `a0` is their number, `a1` is where they lie, at or above `sp`, in pages that the process may
    write. -/
structure AtEntry (argc : ℕ) (kargv : ℕ → Bytes) (st st' : Load FileSide) : Prop where
  a0 : st'.tf.a0 = argc
  above : st'.tf.sp ≤ st'.tf.a1
  arguments : ∃ u, Arguments argc kargv st'.phys st'.satp st'.tf.a1 u
  terminated : ∀ j < argc, ∃ n, argSize (kargv j) = n + 1 ∧ kargv j n = 0 ∧ ∀ k < n, kargv j k ≠ 0
  mapped : ∀ la, st'.tf.a1 ≤ la → la < ustackTop →
    ∃ pte, st'.phys.lookup st'.satp la = some pte ∧ pte &&& pteU ≠ 0 ∧ pte &&& pteW ≠ 0
  outside : ∀ la < userTop, la < st'.tf.a1 ∨ ustackTop ≤ la →
    st'.phys.userByte st'.satp la = st.phys.userByte st.satp la

theorem strnlen_terminated : ∀ (n : ℕ) (s : Bytes), (∃ k ≤ n, s k = 0) →
    s (strnlen s n) = 0 ∧ ∀ k < strnlen s n, s k ≠ 0 := by
  intro n
  induction n with
  | zero =>
    rintro s ⟨k, hk, h0⟩
    obtain rfl := Nat.le_zero.1 hk
    exact ⟨h0, fun j hj => absurd hj (Nat.not_lt_zero j)⟩
  | succ n ih =>
    rintro s ⟨k, hk, h0⟩
    rw [strnlen]
    by_cases hs : s 0 = 0
    · rw [if_pos hs]
      exact ⟨hs, fun j hj => absurd hj (Nat.not_lt_zero j)⟩
    · rw [if_neg hs]
      have hk0 : k ≠ 0 := fun h => hs (h ▸ h0)
      obtain ⟨h1, h2⟩ := ih (s.from' 1) ⟨k - 1, by omega, by
        rw [Bytes.from', Nat.add_sub_cancel' (Nat.one_le_iff_ne_zero.2 hk0), h0]⟩
      refine ⟨(congrArg s (Nat.add_comm _ _)).trans h1, fun j hj => ?_⟩
      obtain rfl | hj0 := Nat.eq_zero_or_pos j
      · exact hs
      · have := h2 (j - 1) (by omega)
        rwa [Bytes.from', Nat.add_sub_cancel' hj0] at this

/-- **The arguments of a process.**  When `load_icode` gets to the arguments, for whatever file,
    they are laid out on the stack if and only if they take no more than a page. -/
theorem exec_args (hF : ∃ role, Frames st.phys D I role 0) (hi : ∀ la < userTop, pdx1 la ∈ I)
    (hboot : ∀ i ∈ I, entry (st.phys.word boot i) = none)
    (h : Reaches A dev room junk boot frame fd st st') (hpos : 1 ≤ argc)
    (hargc : argc ≤ execMaxArgNum) (hz : ∀ j < argc, ∃ k ≤ execMaxArgLen, kargv j k = 0) :
    (∃ st'', loadIcode A dev room junk boot frame fd argc kargv st = some (.ok (), st'') ∧
        AtEntry argc kargv st' st'') ↔ argsSize argc kargv ≤ pgSize := by
  obtain ⟨D', r, p, htop⟩ := h.topPage hF hi hboot
  constructor
  · rintro ⟨st'', hrun, -⟩
    by_contra hbig
    rw [h.loadIcode_none htop hpos hargc (not_le.1 hbig)] at hrun
    cases hrun
  · intro hfit
    have hin := (argsSp_iff hargc).2 hfit
    obtain ⟨st4, u, hargs, ht4, hs4, hA⟩ := pushArgs_run kargv htop hargc hin
    refine ⟨{ st4 with tf := _ },
      (h.loadIcode_eq kargv hpos hargc).trans ((Code.attempt_bind hargs).trans rfl), rfl, le_rfl,
      ⟨u, ht4.satp.symm ▸ hA⟩, fun j hj => ⟨_, rfl, strnlen_terminated _ _ (hz j hj)⟩,
      fun la h1 h2 => ⟨stackPte p, ?_, stackPte_user, stackPte_writable⟩, fun la hla hout => ?_⟩
    · have hent := ht4.own.entry la h2 (by
        have := hin.trans h1
        unfold ustackTop userTop pgSize at *
        omega)
      exact (congrArg (st4.phys.lookup · la) ht4.satp).trans hent
    · have hsame := hs4.outside la hla hout
      exact (congrArg (st4.phys.userByte · la) ht4.satp).trans
        (hsame.trans (congrArg (st'.phys.userByte · la) htop.satp.symm))

/-- A small program is loaded with an empty argument. -/
theorem exec_args_tiny : ∃ st', Reaches lowest soundDevice (fun _ => true) (fun _ => 0) 0x80200
      tinyFrame 0 (tinyState (sideOf tinyFs)) st' ∧
    ∃ st'', loadIcode lowest soundDevice (fun _ => true) (fun _ => 0) 0x80200 tinyFrame 0 1
      (fun _ _ => 0) (tinyState (sideOf tinyFs)) = some (.ok (), st'') ∧
      AtEntry 1 (fun _ _ => 0) st' st'' := by
  have hM : Suffices lowest (fun _ => true) 0x80200 ∅ PageSys.entries (need tinyElf 1)
      (tinyState (sideOf tinyFs)).phys := suffices_sixteenPages (by decide +kernel)
  obtain ⟨D', F, r, p, st', hreach, -⟩ := reaches_stacked (fun _ => 0) tinyFrame program_tinyElf hM
    direct_sixteenPages openFile_tinyFs rfl
  exact ⟨st', hreach, (exec_args hM.frames hM.user hM.boot hreach le_rfl (by decide)
    fun _ _ => ⟨0, Nat.zero_le _, rfl⟩).2 (by decide +kernel)⟩

/-- **With one argument of 4095 letters** the small program never starts. -/
theorem exec_long_argument : ∃ st', Reaches lowest soundDevice (fun _ => true) (fun _ => 0) 0x80200
      tinyFrame 0 (tinyState (sideOf tinyFs)) st' ∧ longArgument execMaxArgLen = 0 ∧
    ¬∃ st'', loadIcode lowest soundDevice (fun _ => true) (fun _ => 0) 0x80200 tinyFrame 0 1
      (fun _ => longArgument) (tinyState (sideOf tinyFs)) = some (.ok (), st'') ∧
      AtEntry 1 (fun _ => longArgument) st' st'' := by
  have hM : Suffices lowest (fun _ => true) 0x80200 ∅ PageSys.entries (need tinyElf 1)
      (tinyState (sideOf tinyFs)).phys := suffices_sixteenPages (by decide +kernel)
  obtain ⟨D', F, r, p, st', hreach, -, htop, -⟩ := reaches_stacked (fun _ => 0) tinyFrame
    program_tinyElf hM direct_sixteenPages openFile_tinyFs rfl
  refine ⟨st', hreach, if_neg (lt_irrefl _), ?_⟩
  rintro ⟨st'', hrun, -⟩
  rw [hreach.loadIcode_none htop le_rfl (by decide) (argsSize_full strnlen_longArgument)] at hrun
  cases hrun

end Ucore.Loader
