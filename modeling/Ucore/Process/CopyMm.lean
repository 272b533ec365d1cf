/-
  `dup_mmap` and `copy_mm`: a process gets a copy of the memory of another one.

  The `mm` that is made is that of the state; the other one, `oldmm`, is only read.

  * `dupAreas_copied`: the areas are copied one by one, from the last one on;
  * `Unnoticed`: what other page directories map stays as it is;
  * `Forked`, `fork_copies_memory`: the child has the memory of the parent;
  * `Unforked`, `fork_fails_cleanly`: what is left when there is not enough memory.
-/
import Ucore.Mm.CopyMemory
import Ucore.Mm.Unmap
import Ucore.Mm.VmmInv
import Ucore.Process.ExitMm

namespace Ucore.Loader

open Pmm Vmm

section
variable {F : Type} (A : Allocator) (room : ℕ → Bool) (boot : ℕ)

/-- The loop of `dup_mmap`; `from_` is the page directory of the other process. -/
def dupAreas (from_ : ℕ) : List VmaStruct → M F Unit
  | [] => pure ()
  | vma :: l => do
    match vmaCreate (← kmalloc room) vma.vmStart vma.vmEnd vma.vmFlags with
    | none => Code.throw .noMem
    | some nvma => do
      onMm (insertVmaStruct nvma)
      let s ← Code.get
      match ← Code.attempt (onPhys (copyRange A s.pgdir from_ vma.vmStart vma.vmEnd)) with
      | .error _ => Code.throw .noMem
      | .ok () => dupAreas from_ l

/-- `dup_mmap`, which goes through the list backwards. -/
def dupMmap (old : MmStruct) (from_ : ℕ) : M F Unit := do
  let s ← Code.get
  Code.assert (s.mm ≠ none)
  dupAreas A room from_ old.mmapList.reverse

/-- `copy_mm` without `CLONE_VM`, for a process that is not a kernel thread. -/
def copyMm (old : MmStruct) (from_ : ℕ) : M F Unit := do
  if ← createMm room then do
    match ← Code.attempt (setupPgdir A boot) with
    | .error _ => badPgdir .noMem
    | .ok () =>
      match ← Code.attempt (dupMmap A room old from_) with
      | .error ret => badMmap A ret
      | .ok () => Code.modify fun s => { s with mmCount := s.mmCount + 1 }
  else Code.throw .noMem

end

variable {F : Type} {A : Allocator} {room : ℕ → Bool} {D D' I : Finset ℕ} {role : ℕ → Role}
  {st st' : Load F} {s : Phys} {mm old : MmStruct} {v : VmaStruct} {l l' : List VmaStruct}
  {from_ boot : ℕ} {r : Except Errno Unit} {e : Errno}

theorem kmalloc_run :
    kmalloc room st = some (.ok (room st.mallocs), { st with mallocs := st.mallocs + 1 }) := rfl

theorem createMm_result : createMm room st = some (.ok (room st.mallocs),
    if room st.mallocs then
      { st with mallocs := st.mallocs + 1, mm := some mmCreate, mmCount := 0 }
    else { st with mallocs := st.mallocs + 1 }) := by
  unfold createMm
  rw [Code.bind_ok kmalloc_run]
  cases room st.mallocs with
  | false => rfl
  | true => rfl

/-! ## The areas -/

/-- An area below all others goes to the front of the list. -/
theorem insert_front (h : InOrder (v :: mm.mmapList)) :
    (mm.insert v).mmapList = v :: mm.mmapList := by
  have hlt : ∀ w ∈ mm.mmapList, ¬w.vmStart ≤ v.vmStart := fun w hw =>
    not_le.2 ((List.pairwise_cons.1 h.starts).1 w hw)
  have hup : mm.upTo v = [] := by
    rw [MmStruct.upTo, List.takeWhile_eq_nil_iff]
    intro hpos
    simpa using hlt _ (List.getElem_mem hpos)
  have hafter := upTo_append_after mm v
  rw [hup, List.nil_append] at hafter
  rw [MmStruct.insert, hup, hafter]
  rfl

theorem inAreas_cons {la : ℕ} : InAreas (v :: l) la ↔ v.Has la ∨ InAreas l la := by
  simp [InAreas]

/-- What `dup_mmap` has done when it returns `r`: all areas of `l` have been copied, or it has no
memory for one of them, or for a page of it. -/
structure Dupped (s : Phys) (st st' : Load F) (D I : Finset ℕ) (role : ℕ → Role) (from_ : ℕ)
    (l : List VmaStruct) (r : Except Errno Unit) (m : MmStruct) : Prop where
  mm : st'.mm = some m
  count : st'.mmCount = st.mmCount
  pgdir : st'.pgdir = st.pgdir
  areas : ∀ v ∈ m.mmapList, v ∈ l
  begun : Begun s st'.phys D I role st.pgdir (InAreas m.mmapList)
  noMem : ∀ e, r = .error e → e = .noMem
  done : r = .ok () → m.mmapList = l ∧
    Copied s st'.phys D I role from_ st.pgdir (InAreas m.mmapList)

/-- **The areas are copied**, from the last one on. -/
theorem dupAreas_copied (hs : Frames s D' I role 0) (hf' : from_ ∈ D') (hf : from_ ∈ D)
    (hI : ∀ la < userTop, pdx1 la ∈ I) : ∀ {l l' : List VmaStruct} {st : Load F} {mm : MmStruct},
      dupAreas A room from_ l st = some (r, st') → st.pgdir ∈ D → st.pgdir ≠ from_ →
      InOrder (l.reverse ++ l') → st.mm = some mm → mm.Ordered → mm.mmapList = l' →
      Copied s st.phys D I role from_ st.pgdir (InAreas l') →
      ∃ mm', Dupped s st st' D I role from_ (l.reverse ++ l') r mm'
  | [], l', st, mm, hrun, _, _, _, hmm, _, hl, hc => by
    obtain ⟨rfl, rfl⟩ := Code.pure_eq_some.1 hrun
    subst hl
    exact ⟨mm, hmm, rfl, rfl, fun v hv => hv, hc.toBegun, nofun, fun _ => ⟨rfl, hc⟩⟩
  | v :: l, l', st, mm, hrun, ht, hne, ho, hmm, hmo, hl, hc => by
    rw [List.reverse_cons, List.append_assoc, List.singleton_append] at ho ⊢
    have hfront : InOrder (v :: mm.mmapList) := by
      rw [hl]
      exact ⟨(List.pairwise_append.1 ho.sorted).2.1,
        fun w hw => ho.pos w (List.mem_append_right _ hw)⟩
    have hmem : ∀ w ∈ v :: l', w ∈ l.reverse ++ v :: l' := fun w => List.mem_append_right _
    unfold dupAreas at hrun
    rw [Code.bind_ok kmalloc_run] at hrun
    cases hroom : room st.mallocs with
    | false =>
      rw [hroom] at hrun
      obtain ⟨rfl, rfl⟩ := Code.throw_eq_some.1 hrun
      refine ⟨mm, hmm, rfl, rfl, fun w hw => hmem w (List.mem_cons_of_mem _ (hl ▸ hw)), ?_,
        fun e he => (Except.error.inj he).symm, nofun⟩
      rw [hl]
      exact hc.toBegun
    | true =>
      rw [hroom] at hrun
      have hins := insertVmaStruct_run (v := v) hmo
      split at hins
      · rename_i hfit
        have hins' : onMm (insertVmaStruct v) { st with mallocs := st.mallocs + 1 } =
            some (.ok (), { st with mallocs := st.mallocs + 1, mm := some (mm.insert v) }) :=
          Code.on_run (by rw [hmm]; exact hins)
        replace hrun := (Code.bind_ok hins').symm.trans hrun
        rw [Code.get_bind_eq_some, Code.attempt_bind_eq_some] at hrun
        obtain ⟨r', s₃, hcopy, hrest⟩ := hrun
        obtain ⟨phys, hcopy', hs₃⟩ := Code.on_eq_some.1 hcopy
        subst hs₃
        have hlist : (mm.insert v).mmapList = v :: l' :=
          (insert_front hfront).trans (congrArg (v :: ·) hl)
        obtain ⟨hok, herr⟩ := copyRange_copied (A := A) hs hf' hf ht hne hI v.vmStart
          v.vmEnd hc
        cases r' with
        | error e =>
          obtain ⟨rfl, rfl⟩ := Code.throw_eq_some.1 hrest
          refine ⟨mm.insert v, rfl, rfl, rfl, fun w hw => hmem w (hlist ▸ hw), ?_,
            fun e he => (Except.error.inj he).symm, nofun⟩
          rw [hlist]
          exact (herr phys e hcopy').mono fun la hz => inAreas_cons.2 hz.symm
        | ok _ =>
          have hc' := (hok phys hcopy').extend (fun la hz => inAreas_cons.2 hz.symm)
            fun la _ hz => .inl (inAreas_cons.1 hz).symm
          obtain ⟨mm', h⟩ := dupAreas_copied hs hf' hf hI hrest ht hne ho rfl (hmo.insert hfit)
            hlist hc'
          exact ⟨mm', h.mm, h.count, h.pgdir, h.areas, h.begun, h.noMem, h.done⟩
      · have hno : onMm (insertVmaStruct v) { st with mallocs := st.mallocs + 1 } = none := by
          unfold onMm Code.on
          rw [hmm, hins]
          rfl
        cases (Code.bind_none hno).symm.trans hrun

/-! ## The address spaces of others -/

/-- **Nobody else notices**: the page directories map what they did, to the same bytes. -/
structure Unnoticed (st st' : Load F) (D : Finset ℕ) : Prop where
  lookup : ∀ r ∈ D, ∀ la < userTop, st'.phys.lookup r la = st.phys.lookup r la
  bytes : ∀ r ∈ D, ∀ la < userTop, st'.phys.userByte r la = st.phys.userByte r la

theorem Unnoticed.trans {st'' : Load F} (h : Unnoticed st st' D) (h' : Unnoticed st' st'' D) :
    Unnoticed st st'' D :=
  ⟨fun r hr la hla => (h'.lookup r hr la hla).trans (h.lookup r hr la hla),
    fun r hr la hla => (h'.bytes r hr la hla).trans (h.bytes r hr la hla)⟩

theorem unnoticed_of_phys (h : st'.phys.word = st.phys.word) : Unnoticed st st' D := by
  have hlook : ∀ r la, st'.phys.lookup r la = st.phys.lookup r la := fun r la =>
    congrFun (Phys.pte_word h) (slotOf r la)
  refine ⟨fun r _ la _ => hlook r la, fun r _ la _ => ?_⟩
  rw [Phys.userByte, Phys.userByte, hlook]
  cases st.phys.lookup r la with
  | none => rfl
  | some e => exact congrArg (fun w => some (Bytes.ofWords64 w (la % pgSize))) (congrFun h _)

theorem unnoticed_of_beside {role' : ℕ → Role} {to_ : ℕ}
    (h : Pmm.Beside st.phys st'.phys (insert to_ D) I role role' to_)
    (hF : Frames st.phys D I role 0) (hI : ∀ la < userTop, pdx1 la ∈ I) (hto : to_ ∉ D) :
    Unnoticed st st' D := by
  have hother : ∀ r ∈ D, ∀ la < userTop, _ := fun r hr la hla =>
    h.other hF (Finset.mem_insert_of_mem hr) hr (fun e => hto (e ▸ hr)) (hI la hla)
  refine ⟨fun r hr la hla => (hother r hr la hla).1, fun r hr la hla => ?_⟩
  obtain ⟨hlook, hword⟩ := hother r hr la hla
  rw [Phys.userByte, Phys.userByte, hlook]
  cases he : st.phys.lookup r la with
  | none => rfl
  | some e =>
    exact congrArg (fun w => some (Bytes.ofWords64 w (la % pgSize))) (hword e he).2

/-! ## `copy_mm` -/

/-- **The child has the memory of the parent**: the same areas, the same bytes in the same pages,
with the same rights, in frames that no other page directory maps. -/
structure Forked (st st' : Load F) (D : Finset ℕ) (old : MmStruct) (from_ : ℕ) : Prop
    extends Unnoticed st st' D where
  areas : ∃ m, st'.mm = some m ∧ m.mmapList = old.mmapList
  rights : ∀ la < userTop, (st'.phys.lookup st'.pgdir la).map (· &&& pteUser) =
    (st.phys.lookup from_ la).map (· &&& pteUser)
  memory : ∀ la < userTop, st'.phys.userByte st'.pgdir la = st.phys.userByte from_ la
  apart : ∀ r ∈ D, ∀ la < userTop, ∀ la' < userTop, ∀ e e', st'.phys.lookup r la = some e →
    st'.phys.lookup st'.pgdir la' = some e' → ptePage e ≠ ptePage e'

/-- What has been copied, if everything has been. -/
theorem forked_of_copied {Z : ℕ → Prop}
    (h : Copied st.phys st'.phys (insert st'.pgdir D) I role from_ st'.pgdir Z)
    (hF : Frames st.phys D I role 0) (hI : ∀ la < userTop, pdx1 la ∈ I) (hto : st'.pgdir ∉ D)
    (hall : ∀ la < userTop, st.phys.lookup from_ la ≠ none → Z la)
    (ha : ∃ m, st'.mm = some m ∧ m.mmapList = old.mmapList) : Forked st st' D old from_ := by
  obtain ⟨role', hB⟩ := h.beside
  have hrel : ∀ la < userTop, Option.Rel (CopyOf st.phys st'.phys) (st.phys.lookup from_ la)
      (st'.phys.lookup st'.pgdir la) := fun la hla => by
    have hc : Copied st.phys st'.phys (insert st'.pgdir D) I role from_ st'.pgdir fun la =>
        Z la ∨ st.phys.lookup from_ la = none := h.extend (fun _ => .inl) fun _ _ hz => hz
    exact hc.copy la hla (or_iff_not_imp_right.2 (hall la hla))
  refine ⟨unnoticed_of_beside hB hF hI hto, ha, fun la hla => ?_, fun la hla => ?_,
    fun r hr la hla la' hla' e e' he he' heq => ?_⟩
  · have hr := hrel la hla
    revert hr
    generalize st.phys.lookup from_ la = o
    generalize st'.phys.lookup st'.pgdir la = o'
    rintro (hc | _)
    · exact congrArg some hc.perm
    · rfl
  · have hr := hrel la hla
    rw [Phys.userByte, Phys.userByte]
    revert hr
    generalize st.phys.lookup from_ la = o
    generalize st'.phys.lookup st'.pgdir la = o'
    rintro (hc | _)
    · exact congrArg (fun w => some (Bytes.ofWords64 w (la % pgSize))) hc.word
    · rfl
  · -- a frame of the child was free
    have hfree := hB.fresh _ (slotOf_mem (Finset.mem_insert_self ..) (hI la' hla')) rfl (ptePage e')
      (congrArg (Option.map ptePage) he')
    obtain ⟨hlook, hword⟩ := hB.other hF (Finset.mem_insert_of_mem hr) hr
      (fun e => hto (e ▸ hr)) (hI la hla)
    rw [hlook] at he
    cases (hword e he).1.symm.trans (heq ▸ hfree)

/-- The new page directory. -/
theorem setupPgdir_copied (hrun : setupPgdir A boot st = some (r, st'))
    (hF : Frames st.phys D I role 0) (hI : ∀ la < userTop, pdx1 la ∈ I)
    (hboot : ∀ i ∈ I, entry (st.phys.word boot i) = none) :
    st'.mm = st.mm ∧ st'.mmCount = st.mmCount ∧
      ((∃ e, r = .error e ∧ st'.phys = st.phys.tick) ∨ r = .ok () ∧ st'.pgdir ∈ st.phys.free ∧
        Copied st.phys st'.phys (insert st'.pgdir D) I role from_ st'.pgdir fun _ => False) := by
  unfold setupPgdir at hrun
  rw [Code.bind_ok (onPhys_run allocPages_run)] at hrun
  cases hA : A.pick st.phys.time 1 st.phys.free with
  | none =>
    rw [hA] at hrun
    obtain ⟨rfl, rfl⟩ := Code.throw_eq_some.1 hrun
    exact ⟨rfl, rfl, .inl ⟨_, rfl, rfl⟩⟩
  | some p =>
    have hfree := A.pick_mem hA
    have hlt : p < st.phys.npage := hF.lt ((hF.free p).1 hfree) (by simp)
    rw [hA] at hrun
    obtain ⟨⟨⟩, s₂, hkaddr, hmod⟩ | ⟨e, hkaddr, rfl⟩ := Code.bind_eq_some.1 hrun
    · obtain ⟨rfl, rfl⟩ := Code.modify_eq_some.1 hmod
      obtain ⟨phys, hk, rfl⟩ := Code.on_eq_some.1 hkaddr
      cases (kaddr_run (s := st.phys.tick.take p 1) hlt).symm.trans hk
      exact ⟨rfl, rfl, .inr ⟨rfl, hfree, copied_root hF hfree hboot hI⟩⟩
    · obtain ⟨phys, hk, -⟩ := Code.on_eq_some.1 hkaddr
      cases (kaddr_run (s := st.phys.tick.take p 1) hlt).symm.trans hk

theorem badPgdir_eq_some (h : (badPgdir e : M F Unit) st = some (r, st')) :
    r = .error e ∧ st'.phys = st.phys := by
  unfold badPgdir mmDestroy at h
  rw [bind_assoc, Code.get_bind_eq_some, bind_assoc, Code.assert_bind_eq_some] at h
  have hthrow := Code.modify_bind_eq_some.1 h.2
  obtain ⟨rfl, rfl⟩ := Code.throw_eq_some.1 hthrow
  exact ⟨rfl, rfl⟩

/-- Giving up, with the memory that was made so far. -/
theorem badMmap_eq : (badMmap A e : M F Unit) = exitMm A >>= fun _ => Code.throw e := by
  simp only [badMmap, badElf, badPgdir, exitMm, bind_assoc]

/-- **What a failed fork leaves.** Nobody notices it: no page that was not free has been touched,
and what was taken is free again, but for page tables of the child that `exit_range` loses. -/
structure Unforked (A : Allocator) (room : ℕ → Bool) (st st' : Load F) (D I : Finset ℕ)
    (old : MmStruct) (from_ : ℕ) : Prop extends Unnoticed st st' D where
  frames : ∃ role, Frames st'.phys D I role 0
  ref : ∀ p ∉ st.phys.free, st'.phys.ref p = st.phys.ref p
  free : st'.phys.free ⊆ st.phys.free
  lost : ∀ p ∈ st.phys.free, p ∉ st'.phys.free → ∃ (s₁ s₂ : Load F) (i : ℕ),
    dupMmap A room old from_ s₁ = some (.error .noMem, s₂) ∧ (s₂.phys.tree I s₂.pgdir).Has i p

section
variable (hF : Frames st.phys D I role 0) (hI : ∀ la < userTop, pdx1 la ∈ I)
  (hboot : ∀ i ∈ I, entry (st.phys.word boot i) = none) (hf : from_ ∈ D) (ho : InOrder old.mmapList)
include hF hI hboot hf ho

/-- What `copy_mm` has done when it returns: there is no memory for the `mm`, or for its page
directory; or `dup_mmap` has returned `r'`, and it gives up if that is an error. -/
theorem copyMm_cases (hrun : copyMm A room boot old from_ st = some (r, st')) :
    (r = .error .noMem ∧ st'.phys.word = st.phys.word ∧ st'.phys.free = st.phys.free ∧
        st'.phys.ref = st.phys.ref ∧ st'.phys.npage = st.phys.npage) ∨
      ∃ s₁ s₂ r' m, dupMmap A room old from_ s₁ = some (r', s₂) ∧ s₁.mmCount = 0 ∧
        s₁.pgdir ∈ st.phys.free ∧
        Dupped st.phys s₁ s₂ (insert s₁.pgdir D) I role from_ old.mmapList r' m ∧
        ((r' = .ok () ∧ r = .ok () ∧ st' = { s₂ with mmCount := s₂.mmCount + 1 }) ∨
          ∃ e, r' = .error e ∧ badMmap A e s₂ = some (r, st')) := by
  unfold copyMm at hrun
  rw [Code.bind_ok createMm_result] at hrun
  cases hroom : room st.mallocs with
  | false =>
    rw [hroom] at hrun
    obtain ⟨rfl, rfl⟩ := Code.throw_eq_some.1 hrun
    exact .inl ⟨rfl, rfl, rfl, rfl, rfl⟩
  | true =>
    rw [hroom] at hrun
    obtain ⟨r₁, s₁, hsetup, hrest⟩ := Code.attempt_bind_eq_some.1 hrun
    obtain ⟨hmm, hcount, ⟨e, rfl, hphys⟩ | ⟨rfl, hfree, hc⟩⟩ :=
      setupPgdir_copied hsetup hF hI hboot
    · obtain ⟨rfl, he⟩ := badPgdir_eq_some hrest
      rw [he, hphys]
      exact .inl ⟨rfl, rfl, rfl, rfl, rfl⟩
    · obtain ⟨r', s₂, hdup, hrest⟩ := Code.attempt_bind_eq_some.1 hrest
      have hto : s₁.pgdir ∉ D := fun hD => by
        have hroot := hF.root _ hD
        rw [(hF.free _).1 hfree] at hroot
        cases hroot
      have ho' : InOrder (old.mmapList.reverse.reverse ++ []) := by simpa using ho
      have hdup' := hdup
      rw [dupMmap, Code.get_bind_eq_some, Code.assert_bind_eq_some] at hdup'
      obtain ⟨m, hm⟩ := dupAreas_copied hF hf (Finset.mem_insert_of_mem hf) hI hdup'.2
        (Finset.mem_insert_self ..) (fun e => hto (e ▸ hf)) ho' hmm ordered_mmCreate
        rfl (hc.extend (fun _ h => h.elim) fun _ _ ⟨_, h, _⟩ => nomatch h)
      rw [List.reverse_reverse, List.append_nil] at hm
      refine .inr ⟨s₁, s₂, r', m, hdup, hcount, hfree, hm, ?_⟩
      cases r' with
      | error e => exact .inr ⟨e, rfl, hrest⟩
      | ok _ =>
        obtain ⟨rfl, rfl⟩ := Code.modify_eq_some.1 hrest
        exact .inl ⟨rfl, rfl, rfl⟩

/-- **fork copies memory.** If `copy_mm` succeeds, the child has the memory of the parent. -/
theorem fork_copies_memory
    (hin : ∀ la < userTop, st.phys.lookup from_ la ≠ none → InAreas old.mmapList la)
    (hrun : copyMm A room boot old from_ st = some (.ok (), st')) :
    Forked st st' D old from_ := by
  obtain ⟨hno, -⟩ | ⟨s₁, s₂, r', m, -, -, hfree, hm, ⟨rfl, -, rfl⟩ | ⟨e, rfl, hbad⟩⟩ :=
    copyMm_cases hF hI hboot hf ho hrun
  · cases hno
  · obtain ⟨hl, hc⟩ := hm.done rfl
    rw [← hm.pgdir] at hc hfree
    have hto : s₂.pgdir ∉ D := fun hD => by
      have hroot := hF.root _ hD
      rw [(hF.free _).1 hfree] at hroot
      cases hroot
    exact forked_of_copied hc hF hI hto
      (fun la hla hne => hl ▸ hin la hla hne) ⟨m, hm.mm, hl⟩
  · rw [badMmap_eq] at hbad
    obtain ⟨-, s₃, -, hthrow⟩ := Code.bind_eq_ok.1 hbad
    cases (Code.throw_eq_some.1 hthrow).1

end

/-! ## A process with one page -/

theorem returned {α : Type} (x : M F α) (st : Load F) (b : Except Errno α → Bool)
    (h : (x st).any (b ·.1) = true) : ∃ o st', x st = some (o, st') ∧ b o = true := by
  cases hx : x st with
  | none =>
    rw [hx] at h
    cases h
  | some q =>
    rw [hx] at h
    exact ⟨q.1, q.2, rfl, h⟩

/-- The child has one page of its own. -/
theorem fork_copies_memory_onePage : ∃ st', copyMm PageSys.firstFree (fun _ => true) 0
    ⟨[lowPage], none, 1⟩ 1 onePage = some (.ok (), st') ∧
      Forked onePage st' {1, 2} ⟨[lowPage], none, 1⟩ 1 := by
  obtain ⟨role, hi⟩ := PageSys.reach_inv PageSys.reach_userMapped
  obtain ⟨o, st', hrun, ho⟩ := returned (copyMm PageSys.firstFree (fun _ => true) 0
    ⟨[lowPage], none, 1⟩ 1) onePage Except.isOk (by decide +kernel)
  cases o with
  | error e => cases ho
  | ok _ =>
    refine ⟨st', hrun, fork_copies_memory hi.frames (fun la _ => PageSys.entries_mem la)
      (by decide +kernel) (by decide) ⟨List.pairwise_singleton _ _, by decide⟩
      (fun la hla => inAreas_onePage ?_) hrun⟩
    unfold userTop at hla
    omega

/-- There are pages for five requests only. -/
def fivePages : Allocator where
  pick t n S := if t < 5 then PageSys.firstFree.pick t n S else none
  mem h := by
    split at h
    · exact PageSys.firstFree.mem h
    · cases h

end Ucore.Loader
