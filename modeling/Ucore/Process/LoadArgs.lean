/-
  The arguments on the stack of the user.

  * `TopPage`: of the stack, only the top page is mapped, to the frame `p`;
  * `userStore_run`, `userStore_none`: a byte is stored in the top page, and traps below it;
  * `copyToUser_run`, `copyToUser_none`: and so do some bytes;
  * `pushArgs_run`, `pushArgs_none`: the arguments are put on the stack exactly if they are in its
    top page; `Arguments` says how they lie there.
-/
import Ucore.Mm.UserMem
import Ucore.Process.LoadIcode
import Ucore.Process.Program

namespace Ucore.Loader

open Pmm Vmm

variable {D I : Finset ℕ} {src : Bytes} {r p va len n sp argc lo hi lo' hi' : ℕ} {b : UInt8}
  {st st' st'' : Load FileSide} {kargv : ℕ → Bytes} {u : ℕ → ℕ}

/-- The entry of a page of the stack. -/
def stackPte (p : ℕ) : BitVec 64 := pteCreate p (pteV.setWidth 32 ||| pteUser.setWidth 32)

theorem stackPte_flags : stackPte p &&& 0x3FF#64 = 0x01F#64 :=
  pteCreate_flags (by decide : PermOk (pteV.setWidth 32 ||| pteUser.setWidth 32))

theorem stackPte_writable : stackPte p &&& pteW ≠ 0 := by
  intro h0
  have hw : stackPte p &&& 0x3FF#64 &&& pteW = stackPte p &&& pteW := by
    rw [BitVec.and_assoc]
    rfl
  rw [stackPte_flags, h0] at hw
  exact absurd hw (by decide)

theorem stackPte_user : stackPte p &&& pteU ≠ 0 := by
  intro h0
  have hw : stackPte p &&& 0x3FF#64 &&& pteU = stackPte p &&& pteU := by
    rw [BitVec.and_assoc]
    rfl
  rw [stackPte_flags, h0] at hw
  exact absurd hw (by decide)

/-- The page directory `r` is in use, the stack has its area, but only its top page is mapped, to
    the frame `p`. -/
structure TopPage (D I : Finset ℕ) (r p : ℕ) (st : Load FileSide) : Prop where
  frames : ∃ role, Frames st.phys D I role 0
  root : r ∈ D
  user : ∀ la < userTop, pdx1 la ∈ I
  own : Own st.phys D I r (ustackTop / pgSize - 1) p (stackPte p)
  below : ∀ la, ustackTop - ustackSize ≤ la → la < ustackTop - pgSize → st.phys.lookup r la = none
  areas : ∃ m, st.mm = some m ∧ m.Ordered ∧ stackArea ∈ m.mmapList
  satp : st.satp = r

/-- Of the memory of the user, the bytes from `lo` to `hi` may have changed, and nothing else. -/
structure Stored (r lo hi : ℕ) (st st' : Load FileSide) : Prop where
  same : ∃ phys mm, st' = { st with phys := phys, mm := mm }
  areas : ∀ m, st.mm = some m → m.Ordered →
    ∃ m', st'.mm = some m' ∧ m'.Ordered ∧ m'.mmapList = m.mmapList
  lookup : ∀ la < userTop, st'.phys.lookup r la = st.phys.lookup r la
  outside : ∀ la < userTop, la < lo ∨ hi ≤ la → st'.phys.userByte r la = st.phys.userByte r la

namespace Stored

theorem refl : Stored r lo hi st st where
  same := ⟨st.phys, st.mm, rfl⟩
  areas m hm ho := ⟨m, hm, ho, rfl⟩
  lookup _ _ := rfl
  outside _ _ _ := rfl

theorem trans (h : Stored r lo hi st st') (h' : Stored r lo hi st' st'') :
    Stored r lo hi st st'' where
  same := by
    obtain ⟨phys, mm, rfl⟩ := h.same
    obtain ⟨phys', mm', rfl⟩ := h'.same
    exact ⟨phys', mm', rfl⟩
  areas m hm ho := by
    obtain ⟨m', hm', ho', hl⟩ := h.areas m hm ho
    obtain ⟨m'', hm'', ho'', hl'⟩ := h'.areas m' hm' ho'
    exact ⟨m'', hm'', ho'', hl'.trans hl⟩
  lookup la hla := (h'.lookup la hla).trans (h.lookup la hla)
  outside la hla hout := (h'.outside la hla hout).trans (h.outside la hla hout)

theorem mono (h : Stored r lo hi st st') (hlo : lo' ≤ lo) (hhi : hi ≤ hi') :
    Stored r lo' hi' st st' :=
  ⟨h.same, h.areas, h.lookup, fun la hla hout => h.outside la hla
    (hout.imp (fun h => h.trans_le hlo) fun h => hhi.trans h)⟩

end Stored

/-! ## Bytes -/

/-- **A byte is stored in the top page.** -/
theorem userStore_run (h : TopPage D I r p st) (h1 : ustackTop - pgSize ≤ va)
    (h2 : va < ustackTop) : ∃ st', userStore va b st = some (.ok (), st') ∧ TopPage D I r p st' ∧
      Stored r va (va + 1) st st' ∧ st'.phys.userByte r va = some b := by
  have hpage : va / pgSize = ustackTop / pgSize - 1 := by
    unfold ustackTop userTop pgSize at *
    omega
  have hlook : st.phys.lookup st.satp va = some (stackPte p) := by
    rw [h.satp]
    exact h.own.entry va h2 hpage
  have hframe : ptePage (stackPte p) = p := h.own.page
  obtain ⟨role, hF⟩ := h.frames
  obtain ⟨hF', hpte, ho, hbyte⟩ := h.own.store hF h.root h.user (va % pgSize) (fun _ => b) 1
  have hlook' : ∀ la < userTop, (st.phys.store p (va % pgSize) (fun _ => b) 1).lookup r la =
      st.phys.lookup r la := fun la hla => hpte _ (slotOf_mem h.root (h.user la hla))
  refine ⟨{ st with phys := st.phys.store p (va % pgSize) (fun _ => b) 1 }, ?_,
    ⟨⟨role, hF'⟩, h.root, h.user, ho, fun la h3 h4 => ?_, h.areas, h.satp⟩,
    ⟨⟨_, _, rfl⟩, fun m hm ho => ⟨m, hm, ho, rfl⟩, hlook', fun la hla hout => ?_⟩, ?_⟩
  · unfold userStore
    rw [Code.bind_ok (rfl : (Code.get : M FileSide _) st = _), hlook]
    simp only
    rw [if_neg stackPte_writable, hframe]
    rfl
  · refine (hlook' la ?_).trans (h.below la h3 h4)
    unfold ustackTop at h4
    omega
  · refine (hbyte la hla).trans (if_neg ?_)
    unfold ustackTop userTop pgSize at *
    omega
  · refine (hbyte va h2).trans (if_pos ⟨hpage, le_rfl, Nat.lt_succ_self _⟩)

/-- **A store below the top page traps.** -/
theorem userStore_none (h : TopPage D I r p st) (h1 : ustackTop - ustackSize ≤ va)
    (h2 : va < ustackTop - pgSize) : userStore va b st = none := by
  have hlook : st.phys.lookup st.satp va = none := by
    rw [h.satp]
    exact h.below va h1 h2
  unfold userStore
  rw [Code.bind_ok (rfl : (Code.get : M FileSide _) st = _), hlook]
  rfl

theorem memcpyUser_run (src : Bytes) (h : TopPage D I r p st) (h1 : ustackTop - pgSize ≤ va) :
    ∀ n, va + n ≤ ustackTop → ∃ st', memcpyUser va src n st = some (.ok (), st') ∧
      TopPage D I r p st' ∧ Stored r va (va + n) st st' ∧
      ∀ k < n, st'.phys.userByte r (va + k) = some (src k) := by
  intro n
  induction n with
  | zero => exact fun _ => ⟨st, rfl, h, .refl, fun k hk => absurd hk (Nat.not_lt_zero k)⟩
  | succ n ih =>
    intro h2
    obtain ⟨st1, hrun, ht, hs, hbytes⟩ := ih (by omega)
    obtain ⟨st2, hstore, ht', hs', hbyte⟩ := userStore_run (b := src n) ht
      (show ustackTop - pgSize ≤ va + n by omega) (by omega)
    refine ⟨st2, (Code.bind_ok hrun).trans hstore, ht', (hs.mono le_rfl (Nat.le_succ _)).trans
      (hs'.mono (Nat.le_add_right _ _) le_rfl), fun k hk => ?_⟩
    obtain hk | rfl := Nat.lt_succ_iff_lt_or_eq.1 hk
    · rw [hs'.outside (va + k) (by unfold ustackTop at h2; omega) (.inl (by omega)), hbytes k hk]
    · exact hbyte

theorem memcpyUser_none (src : Bytes) (h : TopPage D I r p st) (h1 : ustackTop - ustackSize ≤ va)
    (h2 : va < ustackTop - pgSize) : ∀ n, memcpyUser va src (n + 1) st = none := by
  intro n
  induction n with
  | zero =>
    have hstore : userStore (va + 0) (src 0) st = none := userStore_none h h1 h2
    exact (Code.bind_ok rfl).trans hstore
  | succ n ih => exact Code.bind_none ih

/-! ## `copy_to_user` -/

/-- The range is in the stack, and not in its lowest page. -/
def InStack (va len : ℕ) : Prop :=
  ustackTop - ustackSize + pgSize ≤ va ∧ 0 < len ∧ va + len ≤ ustackTop

/-- The check passes on the stack. -/
theorem copyToUser_check (h : TopPage D I r p st) (hs : InStack va len) :
    ∃ st', onMm (userMemCheck va len true) st = some (.ok true, st') ∧ TopPage D I r p st' ∧
      Stored r va va st st' := by
  obtain ⟨m, hm, ho, hmem⟩ := h.areas
  obtain ⟨h1, h2, h3⟩ := hs
  obtain ⟨m', hrun, ho', hlist⟩ : ∃ m', userMemCheck va len true (some m) =
      some (.ok true, some m') ∧ m'.Ordered ∧ m'.mmapList = m.mmapList :=
    userMemCheck_pass ho (by unfold ustackTop ustackSize userTop userBase pgSize at *; omega) h2 h3
      fun b hb1 hb2 => ⟨stackArea, hmem,
        ⟨(Nat.le_add_right _ _).trans (h1.trans hb1), hb2.trans_le h3⟩, by decide,
        fun _ _ => h1.trans hb1⟩
  refine
    ⟨{ st with mm := some m' }, Code.on_run (by rw [hm]; exact hrun), ⟨h.frames, h.root, h.user,
    h.own, h.below, ⟨m', rfl, ho', hlist ▸ hmem⟩, h.satp⟩, ⟨⟨_, _, rfl⟩, fun m₀ hm₀ _ => ?_,
    fun _ _ => rfl, fun _ _ _ => rfl⟩⟩
  obtain rfl : m = m₀ := Option.some.inj (hm.symm.trans hm₀)
  exact ⟨m', rfl, ho', hlist⟩

/-- **`copy_to_user` to the top page.** -/
theorem copyToUser_run (src : Bytes) (h : TopPage D I r p st) (h1 : ustackTop - pgSize ≤ va)
    (h2 : 0 < len) (h3 : va + len ≤ ustackTop) :
    ∃ st', copyToUser va src len st = some (.ok (), st') ∧ TopPage D I r p st' ∧
      Stored r va (va + len) st st' ∧ ∀ k < len, st'.phys.userByte r (va + k) = some (src k) := by
  have hs : InStack va len := ⟨by
    unfold ustackTop ustackSize userTop pgSize at *
    omega, h2, h3⟩
  obtain ⟨st1, hcheck, ht1, hs1⟩ := copyToUser_check h hs
  obtain ⟨st2, hrun, ht2, hs2, hbytes⟩ := memcpyUser_run src ht1 h1 len h3
  refine ⟨st2, ?_, ht2, (hs1.mono le_rfl (Nat.le_add_right _ _)).trans hs2, hbytes⟩
  unfold copyToUser
  rw [Code.bind_ok hcheck, if_pos rfl]
  exact hrun

/-- **`copy_to_user` from below the top page** passes its check, and traps. -/
theorem copyToUser_none (h : TopPage D I r p st) (hs : InStack va len)
    (h1 : va < ustackTop - pgSize) : copyToUser va src len st = none := by
  obtain ⟨st1, hcheck, ht1, -⟩ := copyToUser_check h hs
  obtain ⟨n, rfl⟩ := Nat.exists_eq_add_of_lt hs.2.1
  have hnone := memcpyUser_none src ht1 ((Nat.le_add_right _ _).trans hs.1) h1 (0 + n)
  unfold copyToUser
  rw [Code.bind_ok hcheck, if_pos rfl]
  exact hnone

/-! ## The strings -/

theorem strnlen_le (s : Bytes) : ∀ n, strnlen s n ≤ n := by
  intro n
  induction n generalizing s with
  | zero => exact le_rfl
  | succ n ih =>
    rw [strnlen]
    split
    · exact Nat.zero_le _
    · exact Nat.succ_le_succ (ih _)

/-- Where the last of `i` strings is put below `sp`. -/
def stringsSp (kargv : ℕ → Bytes) : ℕ → ℕ → ℕ
  | 0, sp => sp
  | i + 1, sp => stringsSp kargv i (argSp sp (kargv i))

/-- A string is put below `sp`, not far from it. -/
theorem argSp_bounds (arg : Bytes) (h : 5000 ≤ sp) :
    argSp sp arg + argSize arg ≤ sp ∧ sp ≤ argSp sp arg + 4103 ∧ 0 < argSize arg := by
  have hlen := strnlen_le arg execMaxArgLen
  unfold argSp argSize execMaxArgLen roundDown at *
  omega

theorem argSp_aligned {arg : Bytes} : argSp sp arg % 8 = 0 := by
  unfold argSp roundDown
  omega

theorem stringsSp_bounds (kargv : ℕ → Bytes) : ∀ i sp, 5000 + i * 4103 ≤ sp →
    stringsSp kargv i sp ≤ sp ∧ sp ≤ stringsSp kargv i sp + i * 4103 := by
  intro i
  induction i with
  | zero =>
    intro sp _
    rw [stringsSp]
    omega
  | succ i ih =>
    intro sp h
    rw [Nat.add_one_mul, ← Nat.add_assoc] at h
    rw [stringsSp, Nat.add_one_mul, ← Nat.add_assoc]
    obtain ⟨hb, hb', -⟩ := argSp_bounds (kargv i) (show 5000 ≤ sp by omega)
    generalize argSp sp (kargv i) = q, argSize (kargv i) = w at *
    have hi := ih q (by omega)
    omega

/-- The strings `kargv 0`, ..., one for each `j < n`, are at `u 0`, ..., from `lo` to `hi`. -/
structure Strings (kargv : ℕ → Bytes) (s : Phys) (r lo hi n : ℕ) (u : ℕ → ℕ) : Prop where
  inside : ∀ j < n, lo ≤ u j ∧ u j + argSize (kargv j) ≤ hi
  aligned : ∀ j < n, u j % 8 = 0
  disjoint : ∀ j k, j < k → k < n → u j + argSize (kargv j) ≤ u k
  bytes : ∀ j < n, ∀ k < argSize (kargv j), s.userByte r (u j + k) = some (kargv j k)

/-- What is stored elsewhere does not change them. -/
theorem Strings.stored {lo'' : ℕ} (h : Strings kargv st.phys r lo hi n u)
    (hs : Stored r lo' hi' st st') (hhi : hi ≤ userTop) (hd : hi' ≤ lo) (hlo : lo'' ≤ lo) :
    Strings kargv st'.phys r lo'' hi n u :=
  ⟨fun j hj => ⟨hlo.trans (h.inside j hj).1, (h.inside j hj).2⟩, h.aligned, h.disjoint,
    fun j hj k hk => by
      have hin := h.inside j hj
      rw [hs.outside _ (by omega) (.inr (by omega)), h.bytes j hj k hk]⟩

theorem pushStrings_run (kargv : ℕ → Bytes) : ∀ i sp (uargv : ℕ → ℕ) (st : Load FileSide),
    TopPage D I r p st → i ≤ execMaxArgNum → sp ≤ ustackTop →
    ustackTop - pgSize ≤ stringsSp kargv i sp → 5000 + i * 4103 ≤ sp →
    ∃ st' u, pushStrings kargv i sp uargv st = some (.ok (stringsSp kargv i sp, u), st') ∧
      TopPage D I r p st' ∧ Stored r (stringsSp kargv i sp) sp st st' ∧
      Strings kargv st'.phys r (stringsSp kargv i sp) sp i u ∧ ∀ j, i ≤ j → u j = uargv j := by
  intro i
  induction i with
  | zero =>
    exact fun sp uargv st h _ _ _ _ => ⟨st, uargv, rfl, h, .refl, ⟨nofun, nofun, nofun, nofun⟩,
      fun _ _ => rfl⟩
  | succ i ih =>
    intro sp uargv st h hi hsp htop hlow
    rw [Nat.add_one_mul, ← Nat.add_assoc] at hlow
    rw [stringsSp] at htop ⊢
    rw [pushStrings]
    obtain ⟨hb, hb', hw⟩ := argSp_bounds (kargv i) (show 5000 ≤ sp by omega)
    have hq8 : argSp sp (kargv i) % 8 = 0 := argSp_aligned
    obtain ⟨w, hwi⟩ : ∃ w, w = argSize (kargv i) := ⟨_, rfl⟩
    rw [← hwi] at hb hw ⊢
    generalize argSp sp (kargv i) = q at *
    have hs := stringsSp_bounds kargv i q (by omega)
    obtain ⟨st1, hcopy, h1, hs1, hbytes⟩ := copyToUser_run (kargv i) h (htop.trans hs.1) hw
      (hb.trans hsp)
    obtain ⟨st2, u, hrun, h2, hs2, hS, hu⟩ := ih q (Function.update uargv i q) st1 h1 (by omega)
      (by omega) htop (by omega)
    have hui : u i = q := (hu i le_rfl).trans (Function.update_self ..)
    refine ⟨st2, u, (Code.bind_ok hcopy).trans hrun, h2,
      (hs1.mono hs.1 hb).trans (hs2.mono le_rfl ((Nat.le_add_right _ _).trans hb)),
      ⟨fun j hj => ?_, fun j hj => ?_, fun j k hjk hk => ?_, fun j hj k hk => ?_⟩, fun j hj => ?_⟩
    · obtain hj | rfl := Nat.lt_succ_iff_lt_or_eq.1 hj
      · exact ⟨(hS.inside j hj).1, (hS.inside j hj).2.trans ((Nat.le_add_right _ _).trans hb)⟩
      · rw [hui, ← hwi]
        exact ⟨hs.1, hb⟩
    · obtain hj | rfl := Nat.lt_succ_iff_lt_or_eq.1 hj
      · exact hS.aligned j hj
      · rw [hui]
        exact hq8
    · obtain hk | rfl := Nat.lt_succ_iff_lt_or_eq.1 hk
      · exact hS.disjoint j k hjk hk
      · rw [hui]
        exact (hS.inside j hjk).2
    · obtain hj | rfl := Nat.lt_succ_iff_lt_or_eq.1 hj
      · exact hS.bytes j hj k hk
      · rw [← hwi] at hk
        rw [hui,
          hs2.outside (q + k) (by unfold ustackTop at hsp; omega) (.inr (Nat.le_add_right _ _)),
          hbytes k hk]
    · rw [hu j (Nat.le_of_succ_le hj), Function.update_of_ne (by omega)]

theorem pushStrings_none : ∀ i sp (uargv : ℕ → ℕ) (st : Load FileSide), TopPage D I r p st →
    sp ≤ ustackTop → ustackTop - pgSize ≤ sp → i ≤ execMaxArgNum →
    stringsSp kargv i sp < ustackTop - pgSize →
    pushStrings kargv i sp uargv st = none := by
  intro i
  induction i with
  | zero =>
    intro sp uargv st _ _ h1 _ h2
    rw [stringsSp] at h2
    omega
  | succ i ih =>
    intro sp uargv st h hsp htop hi hlt
    have hlow : 5000 ≤ sp := by
      unfold ustackTop userTop pgSize at *
      omega
    rw [stringsSp] at hlt
    rw [pushStrings]
    obtain ⟨hb, hb', hw⟩ := argSp_bounds (kargv i) hlow
    generalize argSp sp (kargv i) = q, argSize (kargv i) = w at *
    by_cases hin : ustackTop - pgSize ≤ q
    · obtain ⟨st1, hcopy, h1, -⟩ := copyToUser_run (kargv i) h hin hw (hb.trans hsp)
      exact (Code.bind_ok hcopy).trans (ih _ _ st1 h1 (by omega) hin (by omega) hlt)
    · refine Code.bind_none (copyToUser_none h ⟨?_, hw, hb.trans hsp⟩ (not_le.1 hin))
      unfold ustackTop ustackSize userTop pgSize at *
      omega

/-! ## The pointers -/

/-- The first `n` entries of the array at `sp` are the pointers `u 0`, .... -/
def Pointers (s : Phys) (r sp n : ℕ) (u : ℕ → ℕ) : Prop :=
  ∀ j < n, ∀ k < 8, s.userByte r (sp + j * 8 + k) = some (Bytes.ofWord (u j) k)

theorem pushPointers_run (uargv : ℕ → ℕ) : ∀ n (st : Load FileSide), TopPage D I r p st →
    ustackTop - pgSize ≤ sp → sp + n * 8 ≤ ustackTop →
    ∃ st', pushPointers sp uargv n st = some (.ok (), st') ∧ TopPage D I r p st' ∧
      Stored r sp (sp + n * 8) st st' ∧ Pointers st'.phys r sp n uargv := by
  intro n
  induction n with
  | zero => exact fun st h _ _ => ⟨st, rfl, h, .refl, nofun⟩
  | succ n ih =>
    intro st h h1 h2
    obtain ⟨st1, hrun, ht1, hs1, hp1⟩ := ih st h h1 (by omega)
    obtain ⟨st2, hcopy, ht2, hs2, hbytes⟩ := copyToUser_run (Bytes.ofWord (uargv n)) ht1
      (show ustackTop - pgSize ≤ sp + n * 8 by omega) (show 0 < 8 by decide) (by omega)
    refine ⟨st2, (Code.bind_ok hrun).trans hcopy, ht2, (hs1.mono le_rfl (by omega)).trans
      (hs2.mono (Nat.le_add_right _ _) (by omega)), fun j hj k hk => ?_⟩
    obtain hj | rfl := Nat.lt_succ_iff_lt_or_eq.1 hj
    · rw [hs2.outside _ (by unfold ustackTop at h2; omega) (.inl (by omega)), hp1 j hj k hk]
    · exact hbytes k hk

theorem pushPointers_none (uargv : ℕ → ℕ) (h : TopPage D I r p st)
    (hs : InStack sp 8) (h1 : sp < ustackTop - pgSize) : ∀ n,
    pushPointers sp uargv (n + 1) st = none := by
  intro n
  induction n with
  | zero =>
    have hcopy : copyToUser (sp + 0 * 8) (Bytes.ofWord (uargv 0)) 8 st = none :=
      copyToUser_none h hs h1
    exact (Code.bind_ok rfl).trans hcopy
  | succ n ih => exact Code.bind_none ih

/-! ## The arguments -/

/-- Where the arguments begin, that is, where `sp` is when the process starts. -/
def argsSp (argc : ℕ) (kargv : ℕ → Bytes) : ℕ := argvSp (stringsSp kargv argc ustackTop) argc

theorem argvSp_aligned : argvSp sp argc % 8 = 0 := by
  unfold argvSp roundDown
  omega

theorem argsSp_bounds (kargv : ℕ → Bytes) (hargc : argc ≤ execMaxArgNum) :
    argsSp argc kargv + (argc + 1) * 8 ≤ stringsSp kargv argc ustackTop ∧
      stringsSp kargv argc ustackTop ≤ ustackTop ∧
      ustackTop - ustackSize + pgSize ≤ argsSp argc kargv := by
  have hb := stringsSp_bounds kargv argc ustackTop (by
    unfold execMaxArgNum ustackTop userTop at *
    omega)
  unfold argsSp argvSp roundDown
  unfold execMaxArgNum ustackTop ustackSize userTop pgSize at *
  omega

/-- The bytes that the arguments take: the strings, and the array of the pointers to them. -/
def argsSize (argc : ℕ) (kargv : ℕ → Bytes) : ℕ :=
  ((List.range argc).map fun i => (argSize (kargv i) + 7) / 8 * 8).sum + (argc + 1) * 8

theorem stringsSp_eq (kargv : ℕ → Bytes) : ∀ i sp, sp % 8 = 0 → 5000 + i * 4103 ≤ sp →
    stringsSp kargv i sp % 8 = 0 ∧
      stringsSp kargv i sp +
        ((List.range i).map fun j => (argSize (kargv j) + 7) / 8 * 8).sum = sp := by
  intro i
  induction i with
  | zero => exact fun sp h _ => ⟨h, rfl⟩
  | succ i ih =>
    intro sp h hlow
    rw [Nat.add_one_mul, ← Nat.add_assoc] at hlow
    obtain ⟨hb, hb', -⟩ := argSp_bounds (kargv i) (show 5000 ≤ sp by omega)
    have hq : argSp sp (kargv i) = sp - argSize (kargv i) - (sp - argSize (kargv i)) % 8 := rfl
    rw [stringsSp, List.range_succ, List.map_append, List.sum_append, List.map_singleton,
      List.sum_singleton]
    generalize argSp sp (kargv i) = q, argSize (kargv i) = w at *
    obtain ⟨h1, h2⟩ := ih q (by omega) (by omega)
    exact ⟨h1, by omega⟩

/-- The arguments are in the top page if they take no more than a page. -/
theorem argsSp_iff (hargc : argc ≤ execMaxArgNum) :
    ustackTop - pgSize ≤ argsSp argc kargv ↔ argsSize argc kargv ≤ pgSize := by
  obtain ⟨h1, h2⟩ := stringsSp_eq kargv argc ustackTop (by decide) (by
    unfold execMaxArgNum ustackTop userTop at *
    omega)
  have hb := (stringsSp_bounds kargv argc ustackTop (by
    unfold execMaxArgNum ustackTop userTop at *
    omega)).2
  unfold argsSp argvSp argsSize roundDown
  unfold execMaxArgNum ustackTop userTop pgSize at *
  omega

/-- The arguments lie on the stack from `sp` on: the array of the pointers, ended by `NULL`, and
    behind it the strings. -/
structure Arguments (argc : ℕ) (kargv : ℕ → Bytes) (s : Phys) (r sp : ℕ) (u : ℕ → ℕ) : Prop where
  aligned : sp % 8 = 0
  pointers : Pointers s r sp argc u
  null : ∀ k < 8, s.userByte r (sp + argc * 8 + k) = some 0
  strings : Strings kargv s r (sp + (argc + 1) * 8) ustackTop argc u

/-- **The arguments are put on the stack** if they are in its top page. -/
theorem pushArgs_run (kargv : ℕ → Bytes) (h : TopPage D I r p st) (hargc : argc ≤ execMaxArgNum)
    (hin : ustackTop - pgSize ≤ argsSp argc kargv) :
    ∃ st' u, pushArgs argc kargv st = some (.ok (argsSp argc kargv), st') ∧ TopPage D I r p st' ∧
      Stored r (argsSp argc kargv) ustackTop st st' ∧
      Arguments argc kargv st'.phys r (argsSp argc kargv) u := by
  obtain ⟨h1, h2, -⟩ := argsSp_bounds kargv hargc
  have htop : ustackTop = userTop := rfl
  obtain ⟨st1, u, hrun, ht1, hs1, hS, -⟩ := pushStrings_run kargv argc ustackTop (fun _ => 0) st h
    hargc le_rfl (by omega) (by
      unfold execMaxArgNum ustackTop userTop at *
      omega)
  obtain ⟨st2, hptr, ht2, hs2, hP⟩ := pushPointers_run u argc st1 ht1 hin (by omega)
  obtain ⟨st3, hnull, ht3, hs3, hbytes⟩ := copyToUser_run (Bytes.ofWord 0) ht2
    (show ustackTop - pgSize ≤ argsSp argc kargv + argc * 8 by omega)
      (show 0 < 8 by decide) (by omega)
  have hs12 : Stored r (argsSp argc kargv) ustackTop st st2 :=
    (hs1.mono (by omega) le_rfl).trans (hs2.mono le_rfl (by omega))
  have halign : argsSp argc kargv % 8 = 0 := argvSp_aligned
  have hpush : pushArgs argc kargv st = some (.ok (argsSp argc kargv), st3) :=
    (Code.bind_ok hrun).trans ((Code.bind_ok hptr).trans (Code.bind_ok hnull))
  generalize argsSp argc kargv = sp at *
  generalize stringsSp kargv argc ustackTop = q at *
  refine ⟨st3, u, hpush, ht3, hs12.trans (hs3.mono (Nat.le_add_right _ _) (by omega)), halign,
    fun j hj k hk => ?_, fun k hk => ?_, ?_⟩
  · rw [hs3.outside _ (by omega) (.inl (by omega)), hP j hj k hk]
  · rw [hbytes k hk, Bytes.ofWord, Nat.zero_div]
    rfl
  · exact ((hS.stored hs2 le_rfl (by omega) (by omega)).stored hs3 le_rfl (by omega) le_rfl)

/-- **Arguments that do not fit into the top page** are never put on the stack: the store traps. -/
theorem pushArgs_none (h : TopPage D I r p st) (hpos : 1 ≤ argc)
    (hargc : argc ≤ execMaxArgNum) (hout : argsSp argc kargv < ustackTop - pgSize) :
    pushArgs argc kargv st = none := by
  obtain ⟨h1, h2, h3⟩ := argsSp_bounds kargv hargc
  by_cases hstr : ustackTop - pgSize ≤ stringsSp kargv argc ustackTop
  · obtain ⟨st1, u, hrun, hs1, -⟩ := pushStrings_run kargv argc ustackTop (fun _ => 0) st h
      hargc le_rfl hstr (by
        unfold execMaxArgNum ustackTop userTop at *
        omega)
    obtain ⟨n, rfl⟩ := Nat.exists_eq_add_of_le' hpos
    have hnone := pushPointers_none u hs1 ⟨h3, by decide, by omega⟩ hout n
    exact (Code.bind_ok hrun).trans (Code.bind_none hnone)
  · exact Code.bind_none (pushStrings_none argc ustackTop (fun _ => 0) st h le_rfl
      (Nat.sub_le _ _) hargc (not_le.1 hstr))

end Ucore.Loader
