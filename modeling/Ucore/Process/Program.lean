/-
  Programs, and what the loaders are to make of them.

  * `Program`: the program headers are in the file, and its segments can be loaded;
  * `setupPgdir_run`: a page directory without pages of users;
  * `Stacked`: the segments are loaded, the area of the stack is there, and some of its pages are;
  * `Image`: what a process is to start with.
-/
import Ucore.Process.Image

namespace Ucore.Loader

open Pmm Vmm

/-! ## Programs -/

/-- The program header with number `i`. -/
def phdr (file : Bytes) (i : ℕ) : Proghdr :=
  Proghdr.ofBytes (file.from' ((Elfhdr.ofBytes file).ePhoff + i * sizeofProghdr))

/-- The loadable segments among the first `n` ones. -/
def segments (file : Bytes) (n : ℕ) : List Proghdr :=
  ((List.range n).map (phdr file)).filter fun ph => ph.pType = elfPtLoad

/-- The loadable segments of a program. -/
def programSegments (file : Bytes) : List Proghdr := segments file (Elfhdr.ofBytes file).ePhnum

/-- A program: its headers are in the file, its segments can be loaded, and no two of them touch the
    same page. -/
structure Program (file : Bytes) (size : ℕ) : Prop where
  header : sizeofElfhdr ≤ size
  magic : (Elfhdr.ofBytes file).eMagic = elfMagic
  table : (Elfhdr.ofBytes file).ePhoff + (Elfhdr.ofBytes file).ePhnum * sizeofProghdr ≤ size
  ok : ∀ ph ∈ programSegments file, ph.Ok size
  disjoint : (programSegments file).Pairwise fun ph ph' => Disjoint ph.pages ph'.pages

variable {file : Bytes} {i n size : ℕ} {ph : Proghdr}

theorem segments_succ : segments file (n + 1) = segments file n ++
    if (phdr file n).pType = elfPtLoad then [phdr file n] else [] := by
  rw [segments, List.range_succ, List.map_append, List.filter_append, segments]
  congr 1
  by_cases h : (phdr file n).pType = elfPtLoad
  · simp [h]
  · simp [h]

theorem segments_sublist (h : i ≤ n) : (segments file i).Sublist (segments file n) :=
  ((List.range_sublist.2 h).map _).filter _

/-- The pages of the first segments and of one more are disjoint. -/
theorem Program.next (h : Program file size) (hi : i < (Elfhdr.ofBytes file).ePhnum)
    (ht : (phdr file i).pType = elfPtLoad) :
    (phdr file i).Ok size ∧ Disjoint (pagesOf (segments file i)) (phdr file i).pages ∧
      pagesOf (segments file i) ∪ (phdr file i).pages ⊆ pagesOf (programSegments file) := by
  have hsub : (segments file i ++ [phdr file i]).Sublist (programSegments file) := by
    have hnext : segments file (i + 1) = segments file i ++ [phdr file i] := by
      rw [segments_succ, if_pos ht]
    exact hnext ▸ segments_sublist hi
  have hmem : phdr file i ∈ programSegments file := hsub.subset (by simp)
  refine ⟨h.ok _ hmem, Finset.disjoint_left.2 fun n hn hn' => ?_, fun n hn => ?_⟩
  · obtain ⟨ph, hph, hn⟩ := mem_pagesOf.1 hn
    have hd :=
      (List.pairwise_append.1 (h.disjoint.sublist hsub)).2.2 ph hph _ (List.mem_singleton_self _)
    exact Finset.disjoint_left.1 hd hn hn'
  · rw [← pagesOf_append] at hn
    obtain ⟨ph, hph, hn⟩ := mem_pagesOf.1 hn
    exact mem_pagesOf.2 ⟨ph, hsub.subset hph, hn⟩

/-! ## The stack -/

def stackFlags : BitVec 32 := vmRead ||| vmWrite ||| vmStack

/-- The area of the stack. -/
def stackArea : VmaStruct := ⟨ustackTop - ustackSize, ustackTop, stackFlags⟩

/-- The top `k` pages of the stack. -/
def stackPages (k : ℕ) : Finset ℕ := Finset.Ico (ustackTop / pgSize - k) (ustackTop / pgSize)

/-- What a process is to start with: its segments, the top `k` pages of its stack and no other
    pages, an area for each segment and one for the stack, and the entry of the program. -/
structure Image {Io : Type} (file : Bytes) (k : ℕ) (st : Load Io) : Prop where
  loaded : ∀ ph ∈ programSegments file, Loaded st.phys st.pgdir file ph
  mapped : ∀ la < userTop, (st.phys.lookup st.pgdir la).isSome ↔
    la / pgSize ∈ pagesOf (programSegments file) ∪ stackPages k
  areas : ∃ m, st.mm = some m ∧ m.Ordered ∧ ∀ v, v ∈ m.mmapList ↔
    (∃ ph ∈ programSegments file, v = ph.area) ∨ v = stackArea
  entry : st.tf.epc = (Elfhdr.ofBytes file).eEntry
  current : st.curMm = true ∧ st.satp = st.pgdir

/-- The pages that a program takes: those of its segments, `k` pages of the stack, the tables for
    them, and the page directory. -/
def need (file : Bytes) (k : ℕ) : ℕ := used (pagesOf (programSegments file) ∪ stackPages k) + 1

/-- Memory suffices: page directories are trees, the one of the kernel has no entries for users, and
    there are `n` free pages, and room for `kmalloc`. -/
structure Suffices (A : Allocator) (room : ℕ → Bool) (boot : ℕ) (D I : Finset ℕ) (n : ℕ)
    (s : Phys) : Prop where
  frames : ∃ role, Frames s D I role 0
  user : ∀ la < userTop, pdx1 la ∈ I
  boot : ∀ i ∈ I, entry (s.word boot i) = none
  complete : A.Complete
  room : ∀ n, room n = true
  card : n ≤ s.free.card

/-- The segment can be loaded beside the pages `P`, and there is memory. -/
structure Ready (A : Allocator) (F P : Finset ℕ) (ph : Proghdr) (size : ℕ) : Prop where
  complete : A.Complete
  ok : ph.Ok size
  disjoint : Disjoint P ph.pages
  used : used (P ∪ ph.pages) ≤ F.card

theorem Program.ready {A : Allocator} {F : Finset ℕ} (h : Program file size) (hA : A.Complete)
    {k : ℕ} (hF : need file k ≤ F.card + 1) (hi : i < (Elfhdr.ofBytes file).ePhnum)
    (ht : (phdr file i).pType = elfPtLoad) :
    Ready A F (pagesOf (segments file i)) (phdr file i) size := by
  obtain ⟨hok, hd, hsub⟩ := h.next hi ht
  have hle : used (pagesOf (programSegments file) ∪ stackPages k) ≤ F.card :=
    Nat.le_of_succ_le_succ hF
  exact ⟨hA, hok, hd, (used_mono (hsub.trans Finset.subset_union_left)).trans hle⟩

/-! ## The page directory -/

variable {A : Allocator} {D I F : Finset ℕ} {boot r k : ℕ} {Io : Type} {st : Load Io}
  {room : ℕ → Bool} {G : Io → Prop}

/-- **`setup_pgdir`** -/
theorem setupPgdir_run (h : Suffices A room boot D I (n + 1) st.phys) :
    ∃ r t, setupPgdir A boot st = some (.ok (), { st with phys := t, pgdir := r }) ∧
      Space t (insert r D) I t.free r ∅ ∧ t.free.card + 1 = st.phys.free.card ∧
      t.free ⊆ st.phys.free := by
  obtain ⟨role, hF⟩ := h.frames
  obtain ⟨p, hmem, hpick⟩ := h.complete.pick (n := st.phys.time) (F := st.phys.free)
    (Finset.card_pos.1 (by have := h.card; omega))
  have hlt : p < st.phys.npage := hF.lt ((hF.free p).1 hmem) (by simp)
  have hroot := hF.addRoot (w := st.phys.word boot) hmem h.boot
  have hdir : ∀ i ∈ I, ((st.phys.tick.take p 1).setPage p (st.phys.word boot)).dirAt p i = none :=
    fun i hi => by
      rw [Phys.dirAt, Phys.word_setPage, if_pos rfl, h.boot i hi]
  have htable : ∀ i ∈ I, ∀ j,
      ((st.phys.tick.take p 1).setPage p (st.phys.word boot)).tableAt p i j = none :=
        fun i hi j => by
    rw [Phys.tableAt, hdir i hi]
    rfl
  have halloc : onPhys (allocPages A 1) st =
      some (.ok (some p), { st with phys := st.phys.tick.take p 1 }) := by
    refine Code.on_run ?_
    rw [allocPages_run, hpick]
    rfl
  have hkaddr : onPhys (kaddr p) { st with phys := st.phys.tick.take p 1 } =
      some (.ok (), { st with phys := st.phys.tick.take p 1 }) :=
    Code.on_run (kaddr_run (s := st.phys.tick.take p 1) hlt)
  refine ⟨p, (st.phys.tick.take p 1).setPage p (st.phys.word boot), ?_,
    ⟨⟨_, hroot⟩, Finset.mem_insert_self _ _, h.user, fun la hla => ?_, fun la hla => ?_,
      fun la hla => ?_, rfl, subset_rfl⟩, Phys.card_take hmem, Finset.sdiff_subset⟩
  · unfold setupPgdir
    rw [Code.bind_ok halloc]
    exact Code.bind_ok hkaddr
  · rw [Phys.lookup, Phys.pteAt, htable _ (h.user la hla)]
    simp
  · rw [hdir _ (h.user la hla)]
    simp
  · rw [htable _ (h.user la hla)]
    simp

theorem createMm_run (hroom : ∀ n, room n = true) : createMm room st = some (.ok true,
    { st with mm := some mmCreate, mmCount := 0, mallocs := st.mallocs + 1 }) := by
  have hk : kmalloc room st = some (.ok true, { st with mallocs := st.mallocs + 1 }) := by
    unfold kmalloc
    rw [Code.bind_ok (rfl : (Code.get : M Io _) _ = _),
      Code.bind_ok (rfl : Code.modify _ _ = _), hroom]
    rfl
  unfold createMm
  rw [Code.bind_ok hk, if_pos rfl]
  rfl

/-- **No segment is loaded yet.** -/
theorem Building.start (h : Suffices A room boot D I (n + 1) st.phys) (hm : st.mm = some mmCreate)
    (hc : st.curMm = false) (hG : G st.io) :
    ∃ r t, setupPgdir A boot st = some (.ok (), { st with phys := t, pgdir := r }) ∧
      Building (insert r D) I t.free r file G (segments file 0)
        { st with phys := t, pgdir := r } ∧
      n ≤ t.free.card ∧ t.free ⊆ st.phys.free := by
  obtain ⟨r, t, hrun, hS, hcard, hsub⟩ := setupPgdir_run h
  refine ⟨r, t, hrun, ⟨hS, ⟨mmCreate, hm, ⟨⟨.nil, by simp [mmCreate]⟩, nofun, rfl⟩,
    by simp [mmCreate, segments]⟩, by simp [segments], rfl, hc, hG⟩, ?_, hsub⟩
  exact Nat.le_of_succ_le_succ (h.card.trans hcard.ge)

/-! ## The pages of the stack -/

/-- The segments are loaded, and the top `k` pages of the stack are mapped. -/
structure Stacked (D I F : Finset ℕ) (r : ℕ) (file : Bytes) (G : Io → Prop) (k : ℕ)
    (st : Load Io) : Prop where
  space : Space st.phys D I F r (pagesOf (programSegments file) ∪ stackPages k)
  loaded : ∀ ph ∈ programSegments file, Loaded st.phys r file ph
  areas : ∃ m, st.mm = some m ∧ m.Ordered ∧ ∀ v, v ∈ m.mmapList ↔
    (∃ ph ∈ programSegments file, v = ph.area) ∨ v = stackArea
  pgdir : st.pgdir = r
  io : G st.io

/-- **The area of the stack** is mapped. -/
theorem Building.stack (h : Building D I F r file G (programSegments file) st)
    (hP : Program file size) (hroom : ∀ n, room n = true) :
    ∃ st', mapArea room (ustackTop - ustackSize) ustackSize stackFlags st = some (.ok (), st') ∧
      Stacked D I F r file G 0 st' := by
  obtain ⟨m, hm, ho, hmem⟩ := h.mm
  have h1 : mapStart (ustackTop - ustackSize) = ustackTop - ustackSize := by decide
  have h2 : mapEnd (ustackTop - ustackSize) ustackSize = ustackTop := by decide
  have hf : m.Fits stackArea := by
    refine ⟨by decide, fun w hw hmeet => ?_⟩
    obtain ⟨ph, hph, rfl⟩ := (hmem w).1 hw
    have htop := (hP.ok ph hph).bounds.2.2.1
    exact absurd hmeet.2 (not_lt.2 htop)
  have hu : UserAccess (mapStart (ustackTop - ustackSize))
      (mapEnd (ustackTop - ustackSize) ustackSize) := by
    rw [h1, h2]
    decide
  have hf' : m.Fits ⟨mapStart (ustackTop - ustackSize),
      mapEnd (ustackTop - ustackSize) ustackSize, stackFlags⟩ := by
    rw [h1, h2]
    exact hf
  refine ⟨_, mapArea_run hm ho hroom hu hf', ?_, h.loaded, ⟨_, rfl, ho.insert hf', fun v => ?_⟩,
    h.pgdir, h.io⟩
  · have h0 : stackPages 0 = ∅ := by decide
    rw [h0, Finset.union_empty]
    exact h.space
  · rw [mem_insert, hmem v, h1, h2, or_comm]
    rfl

theorem stackPages_succ (hk : k < 256) :
    stackPages (k + 1) = insert (ustackTop / pgSize - (k + 1)) (stackPages k) := by
  have htop : ustackTop / pgSize = 524288 := by decide
  ext n
  rw [stackPages, stackPages, htop, Finset.mem_insert, Finset.mem_Ico, Finset.mem_Ico]
  omega

theorem need_mono (hk : k ≤ n) : need file k ≤ need file n := by
  refine Nat.succ_le_succ (used_mono (Finset.union_subset_union_right ?_))
  exact Finset.Ico_subset_Ico_left (Nat.sub_le_sub_left hk _)

/-- **The next page of the stack** is mapped. -/
theorem Stacked.alloc (h : Stacked D I F r file G k st) (hP : Program file size)
    (hA : A.Complete) (hk : k < 256) (hF : need file (k + 1) ≤ F.card + 1) :
    ∃ p t, allocPage A (ustackTop - (k + 1) * pgSize) (pteUser.setWidth 32) st =
        some (.ok (some p), { st with phys := t }) ∧
      Stacked D I F r file G (k + 1) { st with phys := t } ∧
      Own t D I r (ustackTop / pgSize - (k + 1)) p
        (pteCreate p (pteV.setWidth 32 ||| pteUser.setWidth 32)) := by
  have htop : ustackTop / pgSize = 524288 := by decide
  have hdiv : (ustackTop - (k + 1) * pgSize) / pgSize = ustackTop / pgSize - (k + 1) := by
    unfold ustackTop userTop pgSize
    omega
  have hlt : ustackTop - (k + 1) * pgSize < userTop := by
    unfold ustackTop userTop pgSize
    omega
  have hset :
      insert (ustackTop / pgSize - (k + 1)) (pagesOf (programSegments file) ∪ stackPages k) =
      pagesOf (programSegments file) ∪ stackPages (k + 1) := by
    rw [stackPages_succ hk, Finset.union_insert]
  have hnew : ustackTop / pgSize - (k + 1) ∉ pagesOf (programSegments file) ∪ stackPages k := by
    rw [Finset.mem_union, mem_pagesOf, stackPages, Finset.mem_Ico]
    rintro (⟨ph, hph, hn⟩ | hn)
    · have hend := (hP.ok ph hph).bounds.2.2.1
      have hlast := (Finset.mem_Ico.1 hn).2
      unfold ustackTop ustackSize userTop pgSize at *
      omega
    · omega
  obtain ⟨p, t, hrun, -, hS, hown, hkeep⟩ := h.space.alloc hA hlt (by rwa [hdiv])
    (by decide : PermOk (pteUser.setWidth 32)) (by
      rw [hdiv, hset]
      exact Nat.le_of_succ_le_succ hF)
  rw [hdiv] at hS hown
  rw [hset] at hS
  refine ⟨p, t, allocPage_run (h.pgdir ▸ hrun), ⟨hS, fun ph hph la h1 h2 => ?_, h.areas, h.pgdir,
    h.io⟩, hown⟩
  have hla := (hP.ok ph hph).top
  have hin : la / pgSize ∈ pagesOf (programSegments file) ∪ stackPages k :=
    Finset.mem_union_left _ (mem_pagesOf.2 ⟨ph, hph, Proghdr.mem_pages h1 h2⟩)
  rw [hkeep la (by
    unfold ustackTop ustackSize userTop pgSize at *
    omega) hin]
  exact h.loaded ph hph la h1 h2

/-- The process is made the current one. -/
theorem Stacked.image (h : Stacked D I F r file G k st) {tf : Trapframe} {count : ℤ}
    (he : tf.epc = (Elfhdr.ofBytes file).eEntry) :
    Image file k { st with mmCount := count, curMm := true, satp := st.pgdir, tf := tf } where
  loaded := by
    rw [h.pgdir]
    exact h.loaded
  mapped := by
    rw [h.pgdir]
    exact h.space.mapped
  areas := h.areas
  entry := he
  current := ⟨rfl, rfl⟩

end Ucore.Loader
