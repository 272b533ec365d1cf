/-
  The memory of a process that ends is given back: `exit_mmap`, `put_pgdir` and `mm_destroy`.

  * `exitMm`: what `do_exit` does about a memory that nobody else uses;
  * `unmapAreas_spec`, `exitAreas_spec`: the two loops of `exit_mmap`;
  * `exit_mm_exact`: what is given back, exactly;
  * `exit_mm_complete`: when no page table is lost.
-/
import Ucore.Mm.Teardown
import Ucore.Mm.Unmap
import Ucore.Mm.VmmInv
import Ucore.Process.Load

namespace Ucore.Loader

open Pmm Vmm

/-- What `do_exit` does about the memory of the process when its count is zero. -/
def exitMm {F : Type} (A : Allocator) : M F Unit := do
  exitMmap A
  putPgdir
  mmDestroy

variable {F : Type} {A : Allocator} {D I : Finset ℕ} {role role' : ℕ → Role}
  {st st' : Load F} {s t u : Phys} {mm : MmStruct} {v : VmaStruct} {l : List VmaStruct} {r p : ℕ}

/-- The area lies in the memory of users, and is made of pages. -/
structure PageArea (v : VmaStruct) : Prop where
  start : v.vmStart % pgSize = 0
  end_ : v.vmEnd % pgSize = 0
  user : UserAccess v.vmStart v.vmEnd

theorem pdx1_user {la : ℕ} (hI : ∀ i < 2, i ∈ I) (h : la < userTop) : pdx1 la ∈ I := by
  refine hI _ ?_
  rw [pdx1_eq]
  unfold userTop at h
  omega

/-- The address is in one of the areas. -/
def InAreas (l : List VmaStruct) (la : ℕ) : Prop := ∃ v ∈ l, v.Has la

/-- The page tables for an area. -/
def tablesOf (v : VmaStruct) : ℕ × ℕ := (v.vmStart / ptSize, tablesEnd v.vmEnd)

theorem onPhys_run {α : Type} {x : Pmm.M α} {o : Except Errno α} (h : x st.phys = some (o, t)) :
    onPhys x st = some (o, { st with phys := t }) := Code.on_run h

/-! ## The loops of `exit_mmap` -/

/-- **The areas are unmapped.** -/
theorem unmapAreas_spec (hI : ∀ la < userTop, pdx1 la ∈ I) (hr : st.pgdir ∈ D)
    (hl : ∀ v ∈ l, PageArea v) (hF : Frames st.phys D I role 0) : ∃ t role',
    unmapAreas A l st = some (.ok (), { st with phys := t }) ∧ Frames t D I role' 0 ∧
      Pmm.Unmapped st.phys t D I role role' 0 (fun z => z.1 = st.pgdir) ∧
      ∀ la, InAreas l la → t.pte (slotOf st.pgdir la) = none := by
  induction l generalizing st role with
  | nil => exact ⟨st.phys, role, rfl, hF, .refl, fun la ⟨v, hv, _⟩ => nomatch hv⟩
  | cons v l ih =>
    obtain ⟨hv, hl⟩ := List.forall_mem_cons.1 hl
    obtain ⟨t, role1, hrun, hF1, hU, hnone⟩ := unmapRange_spec (A := A) hF hr hI hv.start hv.end_
      hv.user
    obtain ⟨u, role2, hrun', hF2, hU', hnone'⟩ := @ih _ { st with phys := t } hr hl hF1
    have hU1 : Pmm.Unmapped st.phys t D I role role1 0 fun z => z.1 = st.pgdir :=
      ⟨fun z hz => (hU.pte z hz).imp_right fun ⟨⟨la, _, _, e⟩, h⟩ => ⟨e ▸ rfl, h⟩, hU.drops,
        hU.word, hU.ref, hU.npage⟩
    refine ⟨u, role2, ?_, hF2, hU1.trans hU', ?_⟩
    · unfold unmapAreas
      rw [Code.bind_ok (rfl : (Code.get : M F (Load F)) st = _), Code.bind_ok (onPhys_run hrun)]
      exact hrun'
    · rintro la ⟨w, hw, hla⟩
      obtain rfl | hw := List.mem_cons.1 hw
      · have htop := hla.2.trans_le hv.user.2.2
        obtain e | ⟨-, e⟩ := hU'.pte _ (slotOf_mem hr (hI la htop))
        · exact e.trans (hnone _ ⟨la, hla.1, hla.2, rfl⟩)
        · exact e
      · exact hnone' la ⟨w, hw, hla⟩

theorem exitArea_spec (hI : ∀ i < 2, i ∈ I) (hv : PageArea v) (hF : Frames s D I role 0)
    (hS : Shell s I r role) : ∃ t role', exitRange r v.vmStart v.vmEnd s = some (.ok (), t) ∧
      Torn s t D I r role role' ((s.tree I r).exit (tablesOf v).1 (tablesOf v).2)
        ((s.tree I r).Gives (tablesOf v).1 (tablesOf v).2) :=
  exitRange_spec hI hv.start hv.end_ hv.user hF hS

/-- **The page tables are given back.** -/
theorem exitAreas_spec (hI : ∀ i < 2, i ∈ I) (hl : ∀ v ∈ l, PageArea v)
    (hF : Frames st.phys D I role 0) (hS : Shell st.phys I st.pgdir role) : ∃ t role',
    exitAreas l st = some (.ok (), { st with phys := t }) ∧
      Torn st.phys t D I st.pgdir role role'
        (PtTree.exitAll (l.map tablesOf) (st.phys.tree I st.pgdir))
        (PtTree.GivesAll (l.map tablesOf) (st.phys.tree I st.pgdir)) := by
  induction l generalizing st role with
  | nil => exact ⟨st.phys, role, rfl, .refl hF hS⟩
  | cons v l ih =>
    obtain ⟨hv, hl⟩ := List.forall_mem_cons.1 hl
    obtain ⟨t, role1, hrun, hT⟩ := exitArea_spec hI hv hF hS
    obtain ⟨u, role2, hrun', hT'⟩ := @ih _ { st with phys := t } hl hT.frames hT.shell
    rw [hT.tree] at hT'
    refine ⟨u, role2, ?_, ?_⟩
    · unfold exitAreas
      rw [Code.bind_ok (rfl : (Code.get : M F (Load F)) st = _), Code.bind_ok (onPhys_run hrun)]
      exact hrun'
    · rw [List.map_cons]
      exact (hT.trans hT').congr PtTree.exitAll_cons.symm fun p => PtTree.givesAll_cons.symm

/-! ## The end of a memory -/

/-- **What is left** of a process whose memory was given back: no page directory but `r` has lost
anything, and the pages that are free now are those that were free, `r`, the frames that only `r`
mapped, and the page tables that `exit_range` gives back. -/
structure Ended (st st' : Load F) (D I : Finset ℕ) (l : List VmaStruct) : Prop where
  mm : st'.mm = none
  frames : ∃ role, Frames st'.phys (D.erase st.pgdir) I role 0
  others : ∀ r ∈ D.erase st.pgdir, ∀ la < userTop, st'.phys.lookup r la = st.phys.lookup r la
  contents : ∀ r ∈ D.erase st.pgdir, ∀ la < userTop,
    st'.phys.userByte r la = st.phys.userByte r la
  ref : ∀ p ∉ st'.phys.free, st'.phys.ref p + st.phys.maps D I p =
    st.phys.ref p + st.phys.maps (D.erase st.pgdir) I p
  free : ∀ p, p ∈ st'.phys.free ↔ p ∈ st.phys.free ∨ p = st.pgdir ∨
    (0 < st.phys.maps D I p ∧ st.phys.maps (D.erase st.pgdir) I p = 0) ∨
    PtTree.GivesAll (l.map tablesOf) (st.phys.tree I st.pgdir) p

/-- Below page directory `r`, everything has been unmapped. -/
structure Emptied (s t : Phys) (D I : Finset ℕ) (r : ℕ) (role role' : ℕ → Role) : Prop where
  unmapped : Pmm.Unmapped s t D I role role' 0 fun z => z.1 = r
  none : ∀ z ∈ slots D I, z.1 = r → t.pte z = none

namespace Emptied

variable {z : Pmm.Slot}

theorem pte (h : Emptied s t D I r role role') (hz : z ∈ slots D I) (hr : z.1 ≠ r) :
    t.pte z = s.pte z := (h.unmapped.pte z hz).resolve_right fun e => hr e.1

/-- What the other page directories map is what is mapped. -/
theorem maps (h : Emptied s t D I r role role') : t.maps D I p = s.maps (D.erase r) I p := by
  rw [Phys.maps, Phys.maps, refs, refs]
  congr 1
  ext ⟨r', i, j, k⟩
  rw [Finset.mem_filter, Finset.mem_filter, mem_slots, mem_slots, Finset.mem_erase]
  constructor
  · rintro ⟨⟨h1, h2⟩, h3⟩
    have hz := mem_slots.2 ⟨h1, h2⟩
    by_cases e : r' = r
    · rw [Phys.frame, h.none _ hz e] at h3
      cases h3
    · rw [Phys.frame, h.pte hz e] at h3
      exact ⟨⟨⟨e, h1⟩, h2⟩, h3⟩
  · rintro ⟨⟨⟨e, h1⟩, h2⟩, h3⟩
    refine ⟨⟨h1, h2⟩, ?_⟩
    rw [Phys.frame, h.pte (mem_slots.2 ⟨h1, h2⟩) e]
    exact h3

theorem free_iff (h : Emptied s t D I r role role') (hs : Tables s D I role)
    (ht : Tables t D I role') : p ∈ t.free ↔
      p ∈ s.free ∨ 0 < s.maps D I p ∧ s.maps (D.erase r) I p = 0 := by
  rw [ht.free, hs.free, h.unmapped.drops p, h.maps]
  split
  · rename_i hp
    exact iff_of_true rfl (.inr hp)
  · rename_i hp
    exact (or_iff_left hp).symm

/-- The page tables are still there. -/
theorem tree (h : Emptied s t D I r role role') (hs : Tables s D I role) (ht : Tables t D I role')
    (hr : r ∈ D) : t.tree I r = s.tree I r := by
  have hdir : ∀ i ∈ I, t.dirAt r i = s.dirAt r i := fun i hi => Option.ext fun d => by
    rw [ht.dirAt_iff hr hi, hs.dirAt_iff hr hi]
    exact h.unmapped.role_iff hs (y := .dir r i) trivial
  have htab : ∀ i ∈ I, ∀ j, t.tableAt r i j = s.tableAt r i j := by
    intro i hi j
    ext d
    rw [ht.tableAt_iff hr hi, hs.tableAt_iff hr hi]
    exact h.unmapped.role_iff hs (y := .table r i j) trivial
  refine PtTree.ext (funext fun i => ?_) (funext fun n => ?_)
  · exact ite_congr rfl (fun hi => hdir i hi) fun _ => rfl
  · exact ite_congr rfl (fun hi => htab _ hi _) fun _ => rfl

end Emptied

section
variable (hI : ∀ i < 2, i ∈ I) (hF : Frames st.phys D I role 0) (hr : st.pgdir ∈ D)
  (hmm : st.mm = some mm) (h0 : st.mmCount = 0) (hl : ∀ v ∈ mm.mmapList, PageArea v)
  (hI' : ∀ i ∈ I, i < 512)
  (hin : ∀ la < 2 ^ 39, pdx1 la ∈ I → st.phys.lookup st.pgdir la ≠ none → InAreas mm.mmapList la)
include hI hI' hF hr hl hin

/-- After the first loop of `exit_mmap`. -/
theorem unmapAreas_emptied : ∃ t role',
    unmapAreas A mm.mmapList st = some (.ok (), { st with phys := t }) ∧
      Frames t D I role' 0 ∧ Emptied st.phys t D I st.pgdir role role' := by
  obtain ⟨t, role', hrun, hF', hU, hnone⟩ := unmapAreas_spec (A := A)
    (fun _ hla => pdx1_user hI hla) hr hl hF
  refine ⟨t, role', hrun, hF', hU, ?_⟩
  rintro ⟨r, i, j, k⟩ hz (rfl : r = st.pgdir)
  obtain ⟨-, hi, hj, hk⟩ := mem_slots.1 hz
  have hi' := hI' i hi
  obtain ⟨la, hla, e⟩ : ∃ la < 2 ^ 39, slotOf st.pgdir la = (st.pgdir, i, j, k) := by
    refine ⟨((i * 512 + j) * 512 + k) * 4096, ?_, ?_⟩
    · omega
    · rw [slotOf, pdx1_eq, pdx0_eq, ptx_eq]
      refine Prod.ext rfl (Prod.ext ?_ (Prod.ext ?_ ?_))
      · change _ / 2 ^ 30 % 512 = i
        omega
      · change _ / 2 ^ 21 % 512 = j
        omega
      · change _ / 2 ^ 12 % 512 = k
        omega
  rw [← e] at hz ⊢
  by_cases hs : st.phys.lookup st.pgdir la = none
  · obtain e' | ⟨-, e'⟩ := hU.pte _ hz
    · exact e'.trans hs
    · exact e'
  · have e1 : pdx1 la = i := congrArg (fun z : Pmm.Slot => z.2.1) e
    exact hnone la (hin la hla (e1 ▸ hi) hs)

include hmm h0

/-- **The end of a memory** does not fail, and what it gives back is known exactly. -/
theorem exit_mm_exact : ∃ st', exitMm A st = some (.ok (), st') ∧ Ended st st' D I mm.mmapList := by
  obtain ⟨t, role1, hunmap, hF1, hE⟩ := unmapAreas_emptied (A := A) hI hF hr hl hI' hin
  obtain ⟨hF2, hS⟩ := hF1.detach hr hE.none
  obtain ⟨u, role2, hexit, hT⟩ : ∃ u role2,
      exitAreas mm.mmapList { st with phys := t } = some (.ok (), { st with phys := u }) ∧
        Torn t u (D.erase st.pgdir) I st.pgdir _ role2 _
          (PtTree.GivesAll (mm.mmapList.map tablesOf) (t.tree I st.pgdir)) :=
    exitAreas_spec hI hl hF2 hS
  have hfree : st.pgdir ∉ u.free := fun hf => by
    have := hT.shell.root
    simp [(hT.frames.free _).1 hf] at this
  have hrun : exitMm A st =
      some (.ok (), { st with phys := u.give st.pgdir 1, mm := none }) := by
    have hderef : onMm deref st = some (.ok mm, st) :=
      Code.on_run (by rw [hmm]; rfl : deref st.mm = some (.ok mm, st.mm))
    have hmmap : exitMmap A st = some (.ok (), { st with phys := u }) := by
      unfold exitMmap
      rw [Code.bind_ok (rfl : (Code.get : M F (Load F)) st = _),
        Code.assert_bind ⟨by simp [hmm], h0⟩, Code.bind_ok hderef, Code.bind_ok hunmap]
      exact hexit
    have hput : putPgdir { st with phys := u } =
        some (.ok (), { st with phys := u.give st.pgdir 1 }) := by
      unfold putPgdir
      rw [Code.bind_ok (rfl : (Code.get : M F (Load F)) _ = _)]
      exact onPhys_run (freePages_run hfree)
    unfold exitMm
    rw [Code.bind_ok hmmap, Code.bind_ok hput]
    unfold mmDestroy
    rw [Code.bind_ok (rfl : (Code.get : M F (Load F)) _ = _), Code.assert_bind h0]
    rfl
  have hpte : ∀ r ∈ D.erase st.pgdir, ∀ la < userTop,
      (u.give st.pgdir 1).lookup r la = t.lookup r la ∧ t.lookup r la = st.phys.lookup r la :=
    fun r hr' la hla => by
      obtain ⟨hne, hD⟩ := Finset.mem_erase.1 hr'
      have hgive : (u.give st.pgdir 1).pte (slotOf r la) = u.pte (slotOf r la) :=
        congrFun (Phys.pte_word rfl) _
      have hz := slotOf_mem hr' (pdx1_user hI hla)
      exact ⟨hgive.trans (hT.pte hF2.toTables hT.frames.toTables _ hz),
        hE.pte (slotOf_mem hD (pdx1_user hI hla)) hne⟩
  refine ⟨_, hrun, rfl, ⟨_, hT.frames.giveOther hT.shell.root hT.shell.root_lt⟩,
    fun r hr' la hla => (hpte r hr' la hla).1.trans (hpte r hr' la hla).2, fun r hr' la hla => ?_,
    fun p hp => ?_, fun p => ?_⟩
  · obtain ⟨e1, e2⟩ := hpte r hr' la hla
    rw [Phys.userByte, Phys.userByte, e1, e2]
    cases he : st.phys.lookup r la with
    | none => rfl
    | some e =>
      have hz := slotOf_mem (Finset.mem_of_mem_erase hr') (pdx1_user hI hla)
      have hs : role (ptePage e) = .user := hF.frame_user hz (congrArg (Option.map ptePage) he)
      have ht : role1 (ptePage e) = .user :=
        hF1.frame_user hz (congrArg (Option.map ptePage) (e2.trans he))
      have hw1 : t.word (ptePage e) = st.phys.word (ptePage e) :=
        hE.unmapped.word _ (by rw [hs]; exact id)
      have hw2 : u.word (ptePage e) = t.word (ptePage e) :=
        hT.word _ (by rw [detach_user.2 ht]; simp)
      exact congrArg (fun w => some (Bytes.ofWords64 w (la % pgSize))) (hw2.trans hw1)
  · change p ∉ (u.give st.pgdir 1).free at hp
    rw [Phys.free_give, Finset.mem_union, Finset.mem_singleton, not_or] at hp
    have hG : ¬PtTree.GivesAll (mm.mmapList.map tablesOf) (t.tree I st.pgdir) p := fun hG =>
      hp.1 ((hT.frames.free p).2 (hT.gives p hG).2)
    have hu : (u.give st.pgdir 1).ref p = t.ref p := by
      rw [Phys.ref_give, if_neg hp.2]
      exact hT.ref p hG
    change (u.give st.pgdir 1).ref p + _ = _
    rw [hu, ← hE.maps]
    by_cases hs : role p = .user
    · have ht : role1 p = .user := by
        have hdrop := hE.unmapped.drops p
        split at hdrop
        · have hfree' : (role1 p).detach st.pgdir p = .free := detach_free.2 hdrop
          exact absurd ((hT.frames.free p).2 ((hT.keep p hG).trans hfree')) hp.1
        · exact hdrop.trans hs
      rw [hF1.ref_user p ht, hF.ref_user p hs]
      simp only [Pi.zero_apply]
      omega
    · have h0 : t.maps D I p = 0 := Nat.le_zero.1 (hF.maps_user hs ▸ hE.unmapped.maps_le)
      rw [hE.unmapped.ref p hs, hF.maps_user hs, h0]
  · change p ∈ (u.give st.pgdir 1).free ↔ _
    rw [Phys.free_give, Finset.mem_union, Finset.mem_singleton,
      hT.free_iff hF2.toTables hT.frames.toTables, hE.free_iff hF.toTables hF1.toTables,
      hE.tree hF.toTables hF1.toTables hr]
    tauto

end

/-! ## A process with one page -/

/-- The area of the lowest page of users. -/
def lowPage : VmaStruct := ⟨0x200000, 0x201000, 0⟩

/-- It is mapped to the page 4, in the directory 1. -/
def onePage : Load Unit :=
  ⟨PageSys.userMapped.mem, some ⟨[lowPage], none, 1⟩, 0, 1, 0, false, 0, 0, ⟨0, 0, 0, 0, 0⟩, ()⟩

theorem entries_two : ∀ i < 2, i ∈ PageSys.entries := fun _ hi =>
  Finset.mem_range.2 (hi.trans (by decide))

theorem entries_lt : ∀ i ∈ PageSys.entries, i < 512 := fun _ => Finset.mem_range.1

theorem pageArea_lowPage : ∀ v ∈ [lowPage], PageArea v := fun v hv => by
  obtain rfl := List.mem_singleton.1 hv
  exact ⟨rfl, rfl, by decide⟩

theorem onePage_dir : ∀ i < 512, onePage.phys.dirAt 1 i ≠ none → i = 0 := by
  decide +kernel

theorem onePage_table : ∀ j < 512, onePage.phys.tableAt 1 0 j ≠ none ↔ j = 1 := by
  decide +kernel

theorem onePage_leaf : ∀ k < 512, onePage.phys.pteAt 1 0 1 k ≠ none → k = 0 := by
  decide +kernel

theorem inAreas_onePage {la : ℕ} (hla : la < 2 ^ 39) (h : onePage.phys.lookup 1 la ≠ none) :
    InAreas [lowPage] la := by
  have hdir : onePage.phys.dirAt 1 (pdx1 la) ≠ none := by
    intro h0
    rw [Phys.lookup, Phys.pteAt, Phys.tableAt, h0] at h
    exact h rfl
  have e1 := onePage_dir _ (pdx1_lt la) hdir
  rw [Phys.lookup, e1] at h
  have htab : onePage.phys.tableAt 1 0 (pdx0 la) ≠ none := by
    intro h0
    rw [Phys.pteAt, h0] at h
    exact h rfl
  have e0 := (onePage_table _ (pdx0_lt la)).1 htab
  rw [e0] at h
  have ek := onePage_leaf _ (ptx_lt la) h
  rw [pdx1_eq] at e1
  rw [pdx0_eq] at e0
  rw [ptx_eq] at ek
  refine ⟨_, List.mem_singleton_self _, ?_⟩
  change 0x200000 ≤ la ∧ la < 0x201000
  omega

theorem fills_onePage : ∀ v ∈ [lowPage],
    (onePage.phys.tree PageSys.entries 1).Fills (tablesOf v) := by
  intro v hv n h1 h2 m hm
  obtain rfl := List.mem_singleton.1 hv
  have e1 : (tablesOf lowPage).1 = 1 := rfl
  have e2 : (tablesOf lowPage).2 = 2 := rfl
  rw [e1] at h1 ⊢
  rw [e2] at h2 ⊢
  have hm0 : m / 512 = 0 := by omega
  have htab : (onePage.phys.tree PageSys.entries 1).table m =
      onePage.phys.tableAt 1 0 (m % 512) := by
    rw [table_of_mem (hm0 ▸ entries_two 0 (by decide)), hm0]
  have hmod := onePage_table (m % 512) (Nat.mod_lt m (by decide))
  rw [htab, hmod]
  omega

/-- The page, its table and the directories are free in the end. -/
theorem exit_mm_exact_onePage : ∃ st', exitMm PageSys.firstFree onePage = some (.ok (), st') ∧
    Ended onePage st' {1, 2} PageSys.entries [lowPage] := by
  obtain ⟨role, hi⟩ := PageSys.reach_inv PageSys.reach_userMapped
  exact exit_mm_exact entries_two hi.frames
    (by decide) rfl rfl pageArea_lowPage entries_lt
    fun la hla _ h => inAreas_onePage hla h

end Ucore.Loader
