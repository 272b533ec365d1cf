/-
  An address space that is being built: its pages are mapped one by one, and get their bytes.

  * `Phys.bytes`, `Phys.store`: a page as bytes; `Phys.userByte`: what an address of a user reads;
  * `Frames.addRoot`: a new page directory;
  * `Space`: exactly the pages `P` are mapped, and the free pages that were used are those pages and
    their tables;
  * `Space.alloc`, `Space.store`: `pgdir_alloc_page` maps one page more, and a write to its frame is
    seen at its addresses and nowhere else.
-/
import Ucore.Lib.Bytes
import Ucore.Mm.AllocPage
import Ucore.Mm.PageRun

namespace Ucore.Pmm

variable {A : Allocator} {s t : Phys} {D I F : Finset ℕ} {role : ℕ → Role} {P Q : Finset ℕ}
  {p q r i la a n off len : ℕ} {perm : BitVec 32} {e : BitVec 64} {src : Bytes}

/-! ## Bytes -/

namespace Phys

/-- The bytes of a page. -/
def bytes (s : Phys) (p : ℕ) : Bytes := Bytes.ofWords64 (s.word p)

/-- `memcpy(page2kva(p) + off, src, len)` -/
def store (s : Phys) (p off : ℕ) (src : Bytes) (len : ℕ) : Phys :=
  s.setPage p (Bytes.toWords64 ((s.bytes p).copy off src len))

/-- The byte at an address of a user. -/
def userByte (s : Phys) (r la : ℕ) : Option UInt8 :=
  (s.lookup r la).map fun e => s.bytes (ptePage e) (la % pgSize)

@[simp] theorem bytes_store :
    (s.store p off src len).bytes q = if q = p then (s.bytes p).copy off src len else
      s.bytes q := by
  rw [bytes, store, word_setPage]
  split
  · rw [Bytes.ofWords64_toWords64]
  · rfl

/-- A part of a page is written after the whole page. -/
theorem store_store {b : Bytes} (h : off + len ≤ pgSize) :
    (s.store p 0 src pgSize).store p off b len = s.store p 0 (src.copy off b len) pgSize := by
  have hbytes : (((s.bytes p).copy 0 src pgSize).copy off b len) =
      (s.bytes p).copy 0 (src.copy off b len) pgSize := by
    funext j
    by_cases hj : off ≤ j ∧ j < off + len
    · rw [Bytes.copy_of_mem hj.1 hj.2, Bytes.copy_of_mem (Nat.zero_le _) (by omega), Nat.sub_zero,
        Bytes.copy_of_mem hj.1 hj.2]
    · rw [Bytes.copy_of_not_mem (by omega)]
      by_cases hp : j < 0 + pgSize
      · rw [Bytes.copy_of_mem (Nat.zero_le _) hp, Bytes.copy_of_mem (Nat.zero_le _) hp,
          Nat.sub_zero,
          Bytes.copy_of_not_mem (by omega)]
      · rw [Bytes.copy_of_not_mem (by omega), Bytes.copy_of_not_mem (by omega)]
  rw [store, bytes_store, if_pos rfl, hbytes, store, store, setPage, setPage, setPage]
  simp only [Function.update_idem]

theorem bytes_word (h : t.word q = s.word q) : t.bytes q = s.bytes q := by
  rw [bytes, h, bytes]

@[simp] theorem free_store : (s.store p off src len).free = s.free := rfl

end Phys

/-! ## A new page directory -/

/-- A frame that nothing maps becomes a page directory. -/
theorem Frames.toRoot (h : Frames s D I role 0) (hp : role p = .user) (h0 : s.maps D I p = 0)
    (hw : ∀ i ∈ I, entry (s.word p i) = none) :
    Frames s (insert p D) I (Function.update role p .root) 0 := by
  have hold : ∀ {q}, q ≠ p → Function.update role p .root q = role q := fun hq =>
    Function.update_of_ne hq _ _
  have hself : Function.update role p .root p = .root := Function.update_self ..
  have keep : ∀ {x : Role} {q}, x ≠ .root → x ≠ .user →
      (Function.update role p .root q = x ↔ role q = x) := fun {x q} hr hu => by
    by_cases e : q = p
    · subst e
      rw [hself, hp]
      exact iff_of_false hr.symm hu.symm
    · rw [hold e]
  have hpD : p ∉ D := fun hpD => by
    have := h.root p hpD
    rw [hp] at this
    cases this
  have hT : Tables s (insert p D) I (Function.update role p .root) := by
    refine ⟨fun q => ?_, fun r hr => ?_, fun r hr i hi q => ?_, fun d r i hd j q => ?_,
      fun pt r i j hpt k hk q he => ?_, fun d r i hd => ?_, fun pt r i j hpt => ?_,
      fun q hq => ?_, h.small⟩
    · rw [keep (by simp) (by simp), h.free]
    · obtain rfl | hr := Finset.mem_insert.1 hr
      · exact hself
      · exact (hold (ne_of_mem_of_not_mem hr hpD)).trans (h.root r hr)
    · rw [keep (by simp) (by simp)]
      obtain rfl | hr := Finset.mem_insert.1 hr
      · rw [hw i hi]
        exact iff_of_false (by simp) fun e => hpD (h.dirs q r i e).1
      · exact h.dir r hr i hi q
    · rw [keep (by simp) (by simp)] at hd ⊢
      exact h.table d r i hd j q
    · rw [keep (by simp) (by simp)] at hpt
      have hne : q ≠ p := by
        rintro rfl
        exact maps_eq_zero.1 h0 _ (h.mem_slots hpt hk) ((h.frame_eq hpt).trans he)
      exact (hold hne).trans (h.user pt r i j hpt k hk q he)
    · obtain ⟨hr, hi⟩ := h.dirs d r i ((keep (by simp) (by simp)).1 hd)
      exact ⟨Finset.mem_insert_of_mem hr, hi⟩
    · obtain ⟨hj, d, hd⟩ := h.tables pt r i j ((keep (by simp) (by simp)).1 hpt)
      exact ⟨hj, d, (keep (by simp) (by simp)).2 hd⟩
    · by_cases e : q = p
      · exact e ▸ h.lt hp (by simp)
      · exact h.bound q (hold e ▸ hq)
  have hmaps : ∀ q, s.maps (insert p D) I q = s.maps D I q := fun q => by
    refine congrArg Finset.card (Finset.ext fun z => ?_)
    obtain ⟨r, i, j, k⟩ := z
    rw [Finset.mem_filter, Finset.mem_filter, mem_slots, mem_slots, Finset.mem_insert]
    constructor
    · rintro ⟨⟨rfl | hr, hi, hjk⟩, hq⟩
      · obtain ⟨e, he, -⟩ := Option.map_eq_some_iff.1 hq
        change (s.tableAt r i j).bind _ = some e at he
        rw [Phys.tableAt, Phys.dirAt, hw i hi] at he
        cases he
      · exact ⟨⟨hr, hi, hjk⟩, hq⟩
    · rintro ⟨⟨hr, hi, hjk⟩, hq⟩
      exact ⟨⟨.inr hr, hi, hjk⟩, hq⟩
  refine ⟨hT, fun q hq => ?_, fun q hq => h.ref_free q ((keep (by simp) (by simp)).1 hq)⟩
  have hne : q ≠ p := by
    rintro rfl
    rw [hself] at hq
    cases hq
  rw [hmaps]
  exact h.ref_user q ((hold hne).symm.trans hq)

/-- A free page is allocated, and becomes a page directory with contents `w`. -/
theorem Frames.addRoot {w : ℕ → BitVec 64} (h : Frames s D I role 0) (hp : p ∈ s.free)
    (hw : ∀ i ∈ I, entry (w i) = none) :
    Frames ((s.tick.take p 1).setPage p w) (insert p D) I (Function.update role p .root) 0 := by
  have hself : Function.update role p .user p = .user := Function.update_self ..
  have hF := (h.alloc hp).setPage (w := w) hself
  have hfree := (h.free p).1 hp
  have h0 : ((s.tick.take p 1).setPage p w).maps D I p = 0 := by
    refine maps_eq_zero.2 fun z hz e => ?_
    have hpte := (h.alloc hp).pte_congr hF.toTables (fun _ _ _ _ => .rfl) fun q r i j hq => by
      rw [Phys.word_setPage, if_neg (role_ne hq hself (by simp))]
    rw [Phys.frame, hpte z hz] at e
    have := h.frame_user hz e
    rw [hfree] at this
    cases this
  have hroot := hF.toRoot hself h0 fun i hi => by
    rw [Phys.word_setPage, if_pos rfl]
    exact hw i hi
  rwa [Function.update_idem] at hroot

/-! ## Spaces -/

/-- How many pages the pages `P` of an address space take, with the tables for them. -/
def used (P : Finset ℕ) : ℕ := P.card + (P.image (· / 512)).card + (P.image (· / 512 / 512)).card

theorem used_mono (h : P ⊆ Q) : used P ≤ used Q :=
  Nat.add_le_add (Nat.add_le_add (Finset.card_le_card h)
    (Finset.card_le_card (Finset.image_subset_image h)))
    (Finset.card_le_card (Finset.image_subset_image h))

theorem card_image_insert (f : ℕ → ℕ) : ((insert n P).image f).card =
    (P.image f).card + if f n ∈ P.image f then 0 else 1 := by
  rw [Finset.image_insert]
  split
  · rename_i h
    rw [Finset.insert_eq_of_mem h, Nat.add_zero]
  · rename_i h
    exact Finset.card_insert_of_notMem h

theorem used_insert (hn : n ∉ P) : used (insert n P) = used P + 1 +
    ((if n / 512 / 512 ∈ P.image (· / 512 / 512) then 0 else 1) +
      if n / 512 ∈ P.image (· / 512) then 0 else 1) := by
  rw [used, used, card_image_insert, card_image_insert, Finset.card_insert_of_notMem hn]
  omega

/-- The pages `P` of `r`, and no other ones, are mapped; of the pages `F` that were free, those are
    not free any more that they and their tables take. -/
structure Space (s : Phys) (D I F : Finset ℕ) (r : ℕ) (P : Finset ℕ) : Prop where
  frames : ∃ role, Frames s D I role 0
  root : r ∈ D
  user : ∀ la < userTop, pdx1 la ∈ I
  mapped : ∀ la < userTop, (s.lookup r la).isSome ↔ la / pgSize ∈ P
  dirs : ∀ la < userTop, (s.dirAt r (pdx1 la)).isSome ↔
    la / pgSize / 512 / 512 ∈ P.image (· / 512 / 512)
  tables : ∀ la < userTop, (s.tableAt r (pdx1 la) (pdx0 la)).isSome ↔
    la / pgSize / 512 ∈ P.image (· / 512)
  card : s.free.card + used P = F.card
  sub : s.free ⊆ F

/-- The page `n` is mapped to the frame `p` by the entry `e`, and no other page is. -/
structure Own (s : Phys) (D I : Finset ℕ) (r n p : ℕ) (e : BitVec 64) : Prop where
  lt : n * pgSize < userTop
  entry : ∀ la < userTop, la / pgSize = n → s.lookup r la = some e
  page : ptePage e = p
  only : ∀ z ∈ slots D I, s.frame z = some p → ∃ la < userTop, la / pgSize = n ∧ z = slotOf r la

/-- Below `userTop`, the indexes tell the pages apart. -/
theorem page_index (ha : a < userTop) (hla : la < userTop) :
    (slotOf r a = slotOf r la ↔ a / pgSize = la / pgSize) ∧
      (pdx1 a = pdx1 la ↔ a / pgSize / 512 / 512 = la / pgSize / 512 / 512) ∧
      ((pdx1 a = pdx1 la ∧ pdx0 a = pdx0 la) ↔ a / pgSize / 512 = la / pgSize / 512) := by
  unfold userTop at ha hla
  refine ⟨?_, ?_, ?_⟩
  · rw [PageSys.slotOf_inj, vpn, vpn, pgSize]
    omega
  · rw [pdx1_eq, pdx1_eq, pgSize]
    omega
  · rw [pdx1_eq, pdx1_eq, pdx0_eq, pdx0_eq, pgSize]
    omega

/-- A write to a frame of a user changes no entry. -/
theorem Frames.store (hF : Frames s D I role 0) (hu : role p = .user) (off : ℕ) (src : Bytes)
    (len : ℕ) : Frames (s.store p off src len) D I role 0 ∧
      ∀ z ∈ slots D I, (s.store p off src len).pte z = s.pte z := by
  have hF' : Frames (s.store p off src len) D I role 0 := hF.setPage hu
  exact ⟨hF', hF.pte_congr hF'.toTables (fun _ _ _ _ => .rfl) fun q r i j hq => by
    rw [Phys.store, Phys.word_setPage, if_neg (role_ne hq hu (by simp))]⟩

/-- The frame of a page is a user's. -/
theorem Own.user (ho : Own s D I r n p e) (hF : Frames s D I role 0) (hr : r ∈ D)
    (hi : ∀ la < userTop, pdx1 la ∈ I) : role p = .user := by
  have he := ho.entry _ ho.lt (Nat.mul_div_left n (by decide))
  refine hF.frame_user (slotOf_mem hr (hi _ ho.lt)) ?_
  rw [← ho.page]
  exact congrArg (Option.map ptePage) he

/-- **A write to the frame of a page** changes no entry, and is a write to its addresses. -/
theorem Own.store (ho : Own s D I r n p e) (hF : Frames s D I role 0) (hr : r ∈ D)
    (hi : ∀ la < userTop, pdx1 la ∈ I) (off : ℕ) (src : Bytes) (len : ℕ) :
    Frames (s.store p off src len) D I role 0 ∧
      (∀ z ∈ slots D I, (s.store p off src len).pte z = s.pte z) ∧
      Own (s.store p off src len) D I r n p e ∧
      ∀ a < userTop, (s.store p off src len).userByte r a =
        if a / pgSize = n ∧ off ≤ a % pgSize ∧ a % pgSize < off + len then
          some (src (a % pgSize - off))
        else s.userByte r a := by
  have hmem : ∀ a < userTop, slotOf r a ∈ slots D I := fun a ha => slotOf_mem hr (hi a ha)
  obtain ⟨hF', hpte⟩ := hF.store (ho.user hF hr hi) off src len
  have hlook : ∀ a < userTop, (s.store p off src len).lookup r a = s.lookup r a := fun a ha =>
    hpte _ (hmem a ha)
  refine ⟨hF', hpte, ⟨ho.lt, fun a ha e => ?_, ho.page, fun z hz hp => ?_⟩, fun a ha => ?_⟩
  · rw [hlook a ha, ho.entry a ha e]
  · rw [Phys.frame, hpte z hz] at hp
    exact ho.only z hz hp
  · rw [Phys.userByte, hlook a ha, Phys.userByte]
    by_cases hn : a / pgSize = n
    · rw [ho.entry a ha hn, Option.map_some, Option.map_some, ho.page, Phys.bytes_store,
        if_pos rfl]
      by_cases hin : off ≤ a % pgSize ∧ a % pgSize < off + len
      · rw [if_pos ⟨hn, hin⟩, Bytes.copy_of_mem hin.1 hin.2]
      · rw [if_neg fun h => hin h.2, Bytes.copy_of_not_mem (by omega)]
    · rw [if_neg fun h => hn h.1]
      cases he : s.lookup r a with
      | none => rfl
      | some e' =>
        have hne : ptePage e' ≠ p := by
          rintro rfl
          obtain ⟨b, hb, hbn, hz⟩ := ho.only _ (hmem a ha) (congrArg (Option.map ptePage) he)
          exact hn (((page_index (r := r) ha hb).1.1 hz).trans hbn)
        rw [Option.map_some, Option.map_some, Phys.bytes_store, if_neg hne]

namespace Space

variable (h : Space s D I F r P)
include h

theorem missing (hla : la < userTop) : s.missing r la =
    (if la / pgSize / 512 / 512 ∈ P.image (· / 512 / 512) then 0 else 1) +
      if la / pgSize / 512 ∈ P.image (· / 512) then 0 else 1 := by
  rw [Phys.missing, ← if_congr (h.dirs la hla) rfl rfl, ← if_congr (h.tables la hla) rfl rfl]
  cases s.dirAt r (pdx1 la) <;> cases s.tableAt r (pdx1 la) (pdx0 la) <;> rfl

/-- **A page more is mapped.** -/
theorem alloc (hA : A.Complete) (hla : la < userTop) (hn : la / pgSize ∉ P) (hperm : PermOk perm)
    (hc : used (insert (la / pgSize) P) ≤ F.card) :
    ∃ p t, pgdirAllocPage A r la perm s = some (.ok (some p), t) ∧ p ∈ F ∧
      Space t D I F r (insert (la / pgSize) P) ∧
      Own t D I r (la / pgSize) p (pteCreate p (pteV.setWidth 32 ||| perm)) ∧
      ∀ a < userTop, a / pgSize ∈ P → t.userByte r a = s.userByte r a := by
  obtain ⟨role, hF⟩ := h.frames
  have hmiss := h.missing hla
  have hused := used_insert hn
  have hcard := h.card
  have hnone : s.lookup r la = none := by
    rw [← Option.not_isSome_iff_eq_none, h.mapped la hla]
    exact hn
  obtain ⟨p, t, role', hrun, hF', hM⟩ := pgdirAllocPage_complete hA hF h.root (h.user la hla) hperm
    hnone (by omega)
  have hmem : ∀ a < userTop, slotOf r a ∈ slots D I := fun a ha => slotOf_mem h.root (h.user a ha)
  have hlook : ∀ a < userTop, t.lookup r a = if a / pgSize = la / pgSize then
      some (pteCreate p (pteV.setWidth 32 ||| perm)) else s.lookup r a := fun a ha => by
    rw [← if_congr (page_index (r := r) ha hla).1 rfl rfl]
    exact hM.pte _ (hmem a ha)
  refine ⟨p, t, hrun, h.sub hM.fresh, ⟨⟨role', hF'⟩, h.root, h.user, fun a ha => ?_, fun a ha => ?_,
    fun a ha => ?_, ?_, hM.sub.trans h.sub⟩,
      ⟨(Nat.div_mul_le_self _ _).trans_lt hla, fun a ha e => ?_, hM.page, fun z hz hp => ?_⟩,
    fun a ha hP => ?_⟩
  · rw [hlook a ha, Finset.mem_insert, ← h.mapped a ha]
    by_cases e : a / pgSize = la / pgSize
    · simp [e]
    · simp [e]
  · rw [hM.dirs _ (h.user a ha), h.dirs a ha, Finset.image_insert, Finset.mem_insert,
      (page_index (r := r) ha hla).2.1]
  · rw [hM.tables _ (h.user a ha), h.tables a ha, Finset.image_insert, Finset.mem_insert,
      (page_index (r := r) ha hla).2.2]
  · have := hM.card
    omega
  · rw [hlook a ha, if_pos e]
  · refine ⟨la, hla, rfl, ?_⟩
    by_contra hne
    rw [Phys.frame, hM.pte z hz, if_neg hne] at hp
    have hu := hF.frame_user hz hp
    rw [(hF.free p).1 hM.fresh] at hu
    cases hu
  · have hne : a / pgSize ≠ la / pgSize := fun e => hn (e ▸ hP)
    rw [Phys.userByte, hlook a ha, if_neg hne, Phys.userByte]
    cases he : s.lookup r a with
    | none => rfl
    | some e =>
      have hw := hM.word _ (hmem a ha) (ptePage e) (congrArg (Option.map ptePage) he)
      rw [Option.map_some, Option.map_some, Phys.bytes_word hw]

theorem own_lt (ho : Own s D I r n p e) : p < s.npage := by
  obtain ⟨role, hF⟩ := h.frames
  exact hF.lt (ho.user hF h.root h.user) (by simp)

/-- **A write to the frame of a page** is a write to its addresses. -/
theorem store (ho : Own s D I r n p e) : Space (s.store p off src len) D I F r P ∧
    Own (s.store p off src len) D I r n p e ∧
    ∀ a < userTop, (s.store p off src len).userByte r a =
      if a / pgSize = n ∧ off ≤ a % pgSize ∧ a % pgSize < off + len then
        some (src (a % pgSize - off))
      else s.userByte r a := by
  obtain ⟨role, hF⟩ := h.frames
  obtain ⟨hF', hpte, ho', hbyte⟩ := ho.store hF h.root h.user off src len
  refine ⟨⟨⟨role, hF'⟩, h.root, h.user, fun a ha => ?_, fun a ha => ?_, fun a ha => ?_, h.card,
    h.sub⟩, ho', hbyte⟩
  · rw [← h.mapped a ha]
    exact iff_of_eq (congrArg (fun o => o.isSome = true)
      (hpte _ (slotOf_mem h.root (h.user a ha))))
  · rw [← h.dirs a ha]
    simp only [Option.isSome_iff_exists, hF'.dirAt_iff h.root (h.user a ha),
      hF.dirAt_iff h.root (h.user a ha)]
  · rw [← h.tables a ha]
    simp only [Option.isSome_iff_exists, hF'.tableAt_iff h.root (h.user a ha),
      hF.tableAt_iff h.root (h.user a ha)]

end Space

end Ucore.Pmm
