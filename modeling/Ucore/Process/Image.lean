/-
  The image of a program, and how a loader gets to it page by page.

  * `Proghdr.byte`, `Proghdr.pages`, `Proghdr.area`: what a segment means;
  * `Proghdr.Ok`: a segment that can be loaded;
  * `Partly`: a segment of which some pages are mapped and some bytes are there;
  * `Partly.alloc`, `Partly.store`, `Partly.page`: a page is mapped, it gets bytes, or all of them;
  * `Building`: some segments are loaded; `Building.add`: with another one, there is one more.
-/
import Ucore.Mm.MmMap
import Ucore.Process.Elf
import Ucore.Process.Load

namespace Ucore.Loader

open Pmm Vmm

/-! ## Segments -/

namespace Proghdr

/-- The byte of a segment at an address: of the file, or zero behind it. -/
def byte (ph : Proghdr) (file : Bytes) (la : ℕ) : UInt8 :=
  if la < ph.pVa + ph.pFilesz then file (ph.pOffset + (la - ph.pVa)) else 0

/-- The first page of a segment, and the one behind its last one. -/
def first (ph : Proghdr) : ℕ := ph.pVa / pgSize
def last (ph : Proghdr) : ℕ := (ph.pVa + ph.pMemsz + pgSize - 1) / pgSize

/-- The pages that a segment touches. -/
def pages (ph : Proghdr) : Finset ℕ := Finset.Ico ph.first ph.last

/-- The segment rounded to pages, with its flags. -/
def area (ph : Proghdr) : VmaStruct := ⟨ph.first * pgSize, ph.last * pgSize, segFlags ph.pFlags⟩

/-- The segment is loadable: it does not have more bytes in the file than in memory, it is not
    empty, it lies in user space below the stack, and its bytes are in the file. -/
structure Ok (ph : Proghdr) (size : ℕ) : Prop where
  filesz : ph.pFilesz ≤ ph.pMemsz
  memsz : 0 < ph.pMemsz
  base : userBase ≤ ph.pVa
  top : ph.pVa + ph.pMemsz ≤ ustackTop - ustackSize
  file : ph.pOffset + ph.pFilesz ≤ size

end Proghdr

/-- The segment is in the memory of the user. -/
def Loaded (s : Phys) (r : ℕ) (file : Bytes) (ph : Proghdr) : Prop :=
  ∀ la, ph.pVa ≤ la → la < ph.pVa + ph.pMemsz → s.userByte r la = some (ph.byte file la)

variable {A : Allocator} {s s0 t : Phys} {D I F P : Finset ℕ} {file src : Bytes} {ph : Proghdr}
  {r p c hi n la size off len : ℕ} {perm : BitVec 32} {e : BitVec 64}

/-- All addresses of a segment, and of its pages, are below the stack. -/
theorem Proghdr.Ok.bounds (h : ph.Ok size) : ph.first < ph.last ∧
    ph.pVa + ph.pMemsz ≤ ph.last * pgSize ∧ ph.last * pgSize ≤ ustackTop - ustackSize ∧
    ph.first * pgSize ≤ ph.pVa ∧ ph.pVa < (ph.first + 1) * pgSize ∧
    ph.last * pgSize < ph.pVa + ph.pMemsz + pgSize ∧ userBase ≤ ph.first * pgSize := by
  have h1 := h.memsz
  have h2 := h.top
  have h3 := h.base
  unfold Proghdr.first Proghdr.last ustackTop ustackSize userTop userBase pgSize at *
  omega

/-- The range that `mm_map` computes for a segment. -/
theorem Proghdr.Ok.mapRange (h : ph.Ok size) : mapStart ph.pVa = ph.first * pgSize ∧
    mapEnd ph.pVa ph.pMemsz = ph.last * pgSize ∧
      (ph.pVa + ph.pFilesz) % 2 ^ 64 = ph.pVa + ph.pFilesz ∧
    (ph.pVa + ph.pMemsz) % 2 ^ 64 = ph.pVa + ph.pMemsz := by
  have h1 := h.top
  have h2 := h.filesz
  have hlt : ph.pVa + ph.pMemsz + pgSize < 2 ^ 64 := by
    unfold ustackTop ustackSize userTop pgSize at *
    omega
  refine ⟨?_, ?_, Nat.mod_eq_of_lt (by omega), Nat.mod_eq_of_lt (by omega)⟩
  · unfold mapStart roundDown Proghdr.first pgSize
    omega
  · unfold mapEnd
    rw [Nat.mod_eq_of_lt (by omega), roundUp_eq (by omega)]
    rfl

/-! ## Part of a segment -/

/-- Of a segment, the pages before `hi` are mapped, and the bytes before `c` are there; the pages
    `P` are as in `s0`. -/
structure Partly (D I F : Finset ℕ) (r : ℕ) (P : Finset ℕ) (file : Bytes) (ph : Proghdr)
    (s0 s : Phys) (c hi : ℕ) : Prop where
  space : Space s D I F r (P ∪ Finset.Ico ph.first hi)
  bytes : ∀ la, ph.pVa ≤ la → la < c → s.userByte r la = some (ph.byte file la)
  old : ∀ a < userTop, a / pgSize ∈ P → s.userByte r a = s0.userByte r a

namespace Partly

theorem init (h : Space s D I F r P) : Partly D I F r P file ph s s ph.pVa ph.first where
  space := by
    rw [Finset.Ico_self, Finset.union_empty]
    exact h
  bytes _ h1 h2 := absurd h1 (not_le.2 h2)
  old _ _ _ := rfl

/-- The bytes that are said to be there may be fewer. -/
theorem mono (h : Partly D I F r P file ph s0 s c hi) {c' : ℕ} (hc : c' ≤ c) :
    Partly D I F r P file ph s0 s c' hi :=
  ⟨h.space, fun la h1 h2 => h.bytes la h1 (h2.trans_le hc), h.old⟩

/-- All pages are mapped, and all bytes are there. -/
theorem finish (h : Partly D I F r P file ph s0 s c ph.last) (hc : ph.pVa + ph.pMemsz ≤ c) :
    Space s D I F r (P ∪ ph.pages) ∧ Loaded s r file ph :=
  ⟨h.space, fun la h1 h2 => h.bytes la h1 (h2.trans_le hc)⟩

theorem notMem (hd : Disjoint P ph.pages) (h1 : ph.first ≤ n) (h2 : n < ph.last) :
    n ∉ P := fun hn =>
  Finset.disjoint_left.1 hd hn (Finset.mem_Ico.2 ⟨h1, h2⟩)

variable (hok : ph.Ok size) (hd : Disjoint P ph.pages)
include hok hd

/-- **The next page is mapped.** -/
theorem alloc (h : Partly D I F r P file ph s0 s c hi) (hA : A.Complete) (hperm : PermOk perm)
    (hused : used (P ∪ ph.pages) ≤ F.card) (hlo : ph.first ≤ hi) (hhi : hi < ph.last)
    (hc : c ≤ hi * pgSize ∨ c ≤ ph.pVa) :
    ∃ p t, pgdirAllocPage A r (hi * pgSize) perm s = some (.ok (some p), t) ∧ p ∈ F ∧
      Partly D I F r P file ph s0 t c (hi + 1) ∧
      Own t D I r hi p (pteCreate p (pteV.setWidth 32 ||| perm)) := by
  obtain ⟨-, -, htop, -⟩ := hok.bounds
  have hla : hi * pgSize < userTop := by
    unfold ustackTop ustackSize userTop pgSize at *
    omega
  have hdiv : hi * pgSize / pgSize = hi := Nat.mul_div_left hi (by decide)
  have hpages : insert hi (P ∪ Finset.Ico ph.first hi) = P ∪ Finset.Ico ph.first (hi + 1) := by
    rw [show hi + 1 = hi.succ from rfl, Nat.Ico_succ_right_eq_insert_Ico hlo, Finset.union_insert]
  have hnew : hi ∉ P ∪ Finset.Ico ph.first hi := by
    rw [Finset.mem_union, Finset.mem_Ico]
    rintro (hP | hI)
    · exact notMem hd hlo hhi hP
    · omega
  have hle : used (insert hi (P ∪ Finset.Ico ph.first hi)) ≤ F.card := by
    refine (used_mono ?_).trans hused
    rw [hpages]
    exact Finset.union_subset_union_right (Finset.Ico_subset_Ico_right hhi)
  obtain ⟨p, t, hrun, hp, hS, hO, hkeep⟩ := h.space.alloc hA hla (by rwa [hdiv]) hperm
    (by rwa [hdiv])
  rw [hdiv] at hS hO
  rw [hpages] at hS
  refine ⟨p, t, hrun, hp, ⟨hS, fun la h1 h2 => ?_, fun a ha hP => ?_⟩, hO⟩
  · have hin : la / pgSize ∈ P ∪ Finset.Ico ph.first hi := by
      refine Finset.mem_union_right _ (Finset.mem_Ico.2 ⟨Nat.div_le_div_right h1, ?_⟩)
      unfold pgSize at *
      omega
    have hlt : la < userTop := by omega
    rw [hkeep la hlt hin, h.bytes la h1 h2]
  · rw [hkeep a ha (Finset.mem_union_left _ hP), h.old a ha hP]

/-- **The next bytes are written.** -/
theorem store (h : Partly D I F r P file ph s0 s c hi) (ho : Own s D I r n p e)
    (hlo : ph.first ≤ n) (hhi : n < ph.last) (hoff : n * pgSize + off = c)
    (hlen : off + len ≤ pgSize)
    (hsrc : ∀ j < len, ph.pVa ≤ c + j → src j = ph.byte file (c + j)) :
    Partly D I F r P file ph s0 (s.store p off src len) (c + len) hi ∧
      Own (s.store p off src len) D I r n p e := by
  obtain ⟨-, -, htop, -⟩ := hok.bounds
  obtain ⟨hS, hO, hbyte⟩ : Space (s.store p off src len) D I F r _ ∧
    Own (s.store p off src len) D I r n p e ∧ _ := h.space.store ho
  refine ⟨⟨hS, fun la h1 h2 => ?_, fun a ha hP => ?_⟩, hO⟩
  · have hlt : la < userTop := by
      unfold ustackTop ustackSize userTop pgSize at *
      omega
    rw [hbyte la hlt]
    by_cases hin : la / pgSize = n ∧ off ≤ la % pgSize ∧ la % pgSize < off + len
    · have hj : ph.byte file (c + (la % pgSize - off)) = ph.byte file la := by
        congr 1
        unfold pgSize at *
        omega
      rw [if_pos hin, hsrc _ (by omega) (by unfold pgSize at *; omega), hj]
    · rw [if_neg hin]
      refine h.bytes la h1 ?_
      unfold pgSize at *
      omega
  · rw [hbyte a ha, if_neg, h.old a ha hP]
    rintro ⟨rfl, -⟩
    exact notMem hd hlo hhi hP

end Partly

/-! ## Some segments -/

/-- The pages that segments touch. -/
def pagesOf : List Proghdr → Finset ℕ
  | [] => ∅
  | ph :: l => ph.pages ∪ pagesOf l

variable {Io : Type} {G : Io → Prop} {l done : List Proghdr} {st st' : Load Io}
  {room : ℕ → Bool} {addr : ℕ} {flags : BitVec 32} {m m' : MmStruct}

theorem mem_pagesOf : n ∈ pagesOf l ↔ ∃ ph ∈ l, n ∈ ph.pages := by
  induction l with
  | nil => simp [pagesOf]
  | cons ph l ih => simp [pagesOf, ih]

theorem pagesOf_append : pagesOf (l ++ [ph]) = pagesOf l ∪ ph.pages := by
  ext n
  simp only [mem_pagesOf, Finset.mem_union, List.mem_append, List.mem_singleton]
  constructor
  · rintro ⟨q, hq | rfl, hn⟩
    · exact .inl ⟨q, hq, hn⟩
    · exact .inr hn
  · rintro (⟨q, hq, hn⟩ | hn)
    · exact ⟨q, .inl hq, hn⟩
    · exact ⟨ph, .inr rfl, hn⟩

/-- An address of a segment is in one of its pages. -/
theorem Proghdr.mem_pages (h1 : ph.pVa ≤ addr) (h2 : addr < ph.pVa + ph.pMemsz) :
    addr / pgSize ∈ ph.pages := by
  rw [pages, Finset.mem_Ico]
  refine ⟨Nat.div_le_div_right h1, ?_⟩
  unfold last pgSize
  omega

/-- `mm_map` inserts an area that fits. -/
theorem mapArea_run (hm : st.mm = some m) (ho : m.Ordered) (hr : ∀ n, room n = true)
    (hu : UserAccess (mapStart addr) (mapEnd addr len))
    (hf : m.Fits ⟨mapStart addr, mapEnd addr len, flags⟩) :
    mapArea room addr len flags st = some (.ok (), { st with
      mm := some (m.insert ⟨mapStart addr, mapEnd addr len, flags⟩)
      mallocs := st.mallocs + 1 }) := by
  have hno : ¬∃ w ∈ m.mmapList, w.Has (mapStart addr) := by
    rintro ⟨w, hw, h1, h2⟩
    exact hf.2 w hw ⟨h1.trans_lt hu.2.1, h2⟩
  have hrun := mmMap_run (room st.mallocs) addr len flags ho
  rw [if_neg (not_not.2 hu), if_neg hno, hr, if_neg (by simp), if_pos hf, ← hm] at hrun
  unfold mapArea
  rw [Code.bind_ok (rfl : (Code.get : M Io _) st = _), hr]
  have hmap : onMm (mmMap true addr len flags) st = some (.ok _, _) := Code.on_run hrun
  exact Code.bind_ok hmap

/-- The segments `done` are loaded, and nothing else. -/
structure Building (D I F : Finset ℕ) (r : ℕ) (file : Bytes) (G : Io → Prop) (done : List Proghdr)
    (st : Load Io) : Prop where
  space : Space st.phys D I F r (pagesOf done)
  mm : ∃ m, st.mm = some m ∧ m.Ordered ∧ ∀ v, v ∈ m.mmapList ↔ ∃ ph ∈ done, v = ph.area
  loaded : ∀ ph ∈ done, Loaded st.phys r file ph
  pgdir : st.pgdir = r
  cur : st.curMm = false
  io : G st.io

namespace Building

variable (h : Building D I F r file G done st) (hall : ∀ ph ∈ done, ph.Ok size) (hok : ph.Ok size)
  (hd : Disjoint (pagesOf done) ph.pages)
include h hall hok hd

/-- **The area of a segment** whose pages are not touched by the others. -/
theorem map (hr : ∀ n, room n = true) (h1 : mapStart addr = ph.first * pgSize)
    (h2 : mapEnd addr len = ph.last * pgSize) :
    ∃ m, mapArea room addr len (segFlags ph.pFlags) st =
        some (.ok (), { st with mm := some m, mallocs := st.mallocs + 1 }) ∧ m.Ordered ∧
      ∀ v, v ∈ m.mmapList ↔ ∃ q ∈ done ++ [ph], v = q.area := by
  obtain ⟨m, hm, ho, hmem⟩ := h.mm
  obtain ⟨hlt, -, htop, -, -, -, hbase⟩ := hok.bounds
  have hfit : m.Fits ph.area := by
    refine ⟨Nat.mul_lt_mul_of_pos_right hlt (by decide), fun w hw hmeet => ?_⟩
    obtain ⟨q, hq, rfl⟩ := (hmem w).1 hw
    have hq' := (hall q hq).bounds.1
    have h3 : q.first < ph.last := Nat.lt_of_mul_lt_mul_right hmeet.1
    have h4 : ph.first < q.last := Nat.lt_of_mul_lt_mul_right hmeet.2
    have hmax : max ph.first q.first ∈ pagesOf done :=
      mem_pagesOf.2 ⟨q, hq, Finset.mem_Ico.2 (by omega)⟩
    exact Finset.disjoint_left.1 hd hmax (Finset.mem_Ico.2 (by omega))
  have hu : UserAccess (mapStart addr) (mapEnd addr len) := by
    rw [h1, h2]
    refine ⟨hbase, Nat.mul_lt_mul_of_pos_right hlt (by decide), htop.trans ?_⟩
    unfold ustackTop
    omega
  have hf : m.Fits ⟨mapStart addr, mapEnd addr len, segFlags ph.pFlags⟩ := by
    rw [h1, h2]
    exact hfit
  refine ⟨_, mapArea_run hm ho hr hu hf, ho.insert hf, fun v => ?_⟩
  rw [mem_insert, hmem v, h1, h2]
  simp only [List.mem_append, List.mem_singleton]
  constructor
  · rintro (rfl | ⟨q, hq, rfl⟩)
    · exact ⟨ph, .inr rfl, rfl⟩
    · exact ⟨q, .inl hq, rfl⟩
  · rintro ⟨q, hq | rfl, rfl⟩
    · exact .inr ⟨q, hq, rfl⟩
    · exact .inl rfl

omit hok hd in
/-- **Another segment is loaded.** -/
theorem add (hpart : Partly D I F r (pagesOf done) file ph st.phys st'.phys c ph.last)
    (hc : ph.pVa + ph.pMemsz ≤ c)
    (hm : ∃ m, st'.mm = some m ∧ m.Ordered ∧ ∀ v, v ∈ m.mmapList ↔ ∃ q ∈ done ++ [ph], v = q.area)
    (hpg : st'.pgdir = r) (hcur : st'.curMm = false) (hio : G st'.io) :
    Building D I F r file G (done ++ [ph]) st' := by
  obtain ⟨hS, hL⟩ := hpart.finish hc
  refine ⟨by rwa [pagesOf_append], hm, fun q hq => ?_, hpg, hcur, hio⟩
  obtain hq | hq := List.mem_append.1 hq
  · intro la h1 h2
    have htop := (hall q hq).top
    have hlt : la < userTop := by
      unfold ustackTop ustackSize userTop pgSize at *
      omega
    rw [hpart.old la hlt (mem_pagesOf.2 ⟨q, hq, Proghdr.mem_pages h1 h2⟩)]
    exact h.loaded q hq la h1 h2
  · rw [List.mem_singleton.1 hq]
    exact hL

end Building

end Ucore.Loader
