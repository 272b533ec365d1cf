/-
  What the functions of `file.c` do with what is conserved: a process that calls one keeps
  everything, and no assertion fails.

  * `vfsClose_safe`, `fdArrayFree_safe`, `fdArrayRelease_safe`, `fdArrayClose_safe`: an item is
    given back, and so is its inode;
  * `vfsOpen_safe`, `fileOpen_safe`: what an open leaves, also if it fails;
  * `fileMove_safe`, `fileSeek_safe`, `fileAsk_safe`, `fileDup_safe`: an item is used.
-/
import Ucore.Fs.FileShareItems
import Ucore.Fs.FileShareOwn

namespace Ucore.SharedFiles

open Function Coop

variable {P S V α : Type} [DecidableEq P] [DecidableEq S] [DecidableEq V] [Fintype P] [Fintype S]
  {creates : Prop} {base : V → ℕ} {hold : P → Hold S V} {s : SharedFiles P S V} {p : P}
  {h : Hold S V} {file : File V} {node : V} {a : S} {fd : ℕ}
  {Q : Except Errno Unit → (P → Hold S V) → SharedFiles P S V → Prop}

/-! ## Inodes -/

theorem called_safe (hC : Conserved creates base (update hold p h) s)
    (hQ : ∀ hold' s', Conserved creates base (update hold' p h) s' → Q (.ok ()) hold' s') :
    Coop.Safe (Conserved creates base) p creates Q called hold s :=
  safe_ask_bind hC fun _ hold' s' hp hC' => hQ hold' s' (by rwa [← hp, update_eq_self])

theorem vopRefDec_safe (hC : Conserved creates base (update hold p h) s) (hr : h.ref = some node)
    (hQ : ∀ hold' s', Conserved creates base (update hold' p { h with ref := none }) s' →
      Q (.ok ()) hold' s') :
    Coop.Safe (Conserved creates base) p creates Q (vopRefDec node) hold s := by
  have hpos := hC.refCount_pos (p := p) (v := node) (by rw [update_self]; exact .inl hr)
  unfold vopRefDec
  rw [safe_get_bind, safe_assert_bind hpos, safe_modify_bind]
  split
  · exact called_safe (hC.refDec hr) hQ
  · exact hQ _ _ (hC.refDec hr)

theorem vopCwdDec_safe (hC : Conserved creates base (update hold p h) s) (hr : h.cwd = some node)
    (hQ : ∀ hold' s', Conserved creates base (update hold' p { h with cwd := none }) s' →
      Q (.ok ()) hold' s') :
    Coop.Safe (Conserved creates base) p creates Q (vopRefDec node) hold s := by
  have hpos := hC.refCount_pos (p := p) (v := node) (by rw [update_self]; exact .inr hr)
  unfold vopRefDec
  rw [safe_get_bind, safe_assert_bind hpos, safe_modify_bind]
  split
  · exact called_safe (hC.cwdDec hr) hQ
  · exact hQ _ _ (hC.cwdDec hr)

theorem vopOpenDec_safe (hC : Conserved creates base (update hold p h) s) (hn : h.opn = some node)
    (hQ : ∀ hold' s', Conserved creates base (update hold' p { h with opn := none }) s' →
      Q (.ok ()) hold' s') :
    Coop.Safe (Conserved creates base) p creates Q (vopOpenDec node) hold s := by
  have hpos := hC.openCount_pos (p := p) (v := node) (by rwa [update_self])
  unfold vopOpenDec
  rw [safe_get_bind, safe_assert_bind hpos, safe_modify_bind]
  split
  · exact called_safe (hC.openDec hn) hQ
  · exact hQ _ _ (hC.openDec hn)

theorem vfsClose_safe (hC : Conserved creates base (update hold p h) s) (hr : h.ref = some node)
    (hn : h.opn = some node)
    (hQ : ∀ hold' s', Conserved creates base
      (update hold' p { h with ref := none, opn := none }) s' → Q (.ok ()) hold' s') :
    Coop.Safe (Conserved creates base) p creates Q (vfsClose node) hold s := by
  unfold vfsClose
  exact safe_bind.2 (vopOpenDec_safe hC hn fun _ _ hC' => vopRefDec_safe hC' hr hQ)

/-! ## Items -/

omit [DecidableEq S] [DecidableEq V] [Fintype S] in
theorem Hold.quiet (hf : h.freeing = none) (hr : h.ref = none) (hn : h.opn = none) :
    { h with freeing := none, ref := none, opn := none } = h := by
  cases h
  subst hf hr hn
  rfl

theorem fdArrayFree_init (hC : Conserved creates base (update hold p h) s)
    (hlt : fd < filesStructNentry) (ho : h.opening = some (a, fd))
    (hQ : ∀ s', Conserved creates base (update hold p { h with opening := none }) s' →
      Q (.ok ()) hold s') :
    Coop.Safe (Conserved creates base) p creates Q (fdArrayFree a fd) hold s := by
  obtain ⟨hst, hc⟩ := hC.of_opening hlt ho
  unfold fdArrayFree
  rw [safe_get_bind, safe_assert_bind (.inl hst), safe_assert_bind hc, closeNode,
    if_neg (by rw [hst]; decide)]
  exact hQ _ (hC.set hlt (hC.mine_self (.inl ho)) (.initFree ho hst))

theorem fdArrayFree_closed (hC : Conserved creates base (update hold p h) s)
    (hlt : fd < filesStructNentry) (hf : h.freeing = some (a, fd)) (hr : h.ref = some node)
    (hn : h.opn = some node) (hnode : (s.fdArray a fd).node = some node)
    (hQ : ∀ hold' s', Conserved creates base
      (update hold' p { h with freeing := none, ref := none, opn := none }) s' →
      (s'.fdArray a fd).status = .none → Q (.ok ()) hold' s') :
    Coop.Safe (Conserved creates base) p creates Q (fdArrayFree a fd) hold s := by
  obtain ⟨hst, hc⟩ := hC.of_freeing hlt hf
  unfold fdArrayFree
  rw [safe_get_bind, safe_assert_bind (.inr hst), safe_assert_bind hc, closeNode, if_pos hst, hnode]
  refine safe_bind.2 (vfsClose_safe hC hr hn fun hold' s' hC' => ?_)
  obtain ⟨hst', hc'⟩ := hC'.of_freeing hlt hf
  exact hQ _ _ (hC'.set hlt (hC'.mine_self (.inr (.inr hf))) (.freed hf hst' hc'))
    (congrArg File.status setFile_self)

theorem fdArrayRelease_safe (hC : Conserved creates base (update hold p h) s)
    (hlt : fd < filesStructNentry) (hb : h.busy = some (a, fd)) (hf : h.freeing = none)
    (hr : h.ref = none) (hn : h.opn = none) (hw : h.owned = none)
    (hQ : ∀ hold' s', Conserved creates base (update hold' p { h with busy := none }) s' →
      Q (.ok ()) hold' s') :
    Coop.Safe (Conserved creates base) p creates Q (fdArrayRelease a fd) hold s := by
  obtain ⟨hst, hpos, node, hnode⟩ := hC.of_busy hlt hb
  have hmine := hC.mine_self (.inr (.inl hb))
  have hfree : ∀ i, h.owned = some (a, i) → i ≤ fd := fun i hi => by cases hw.symm.trans hi
  have hst' : (s.fdArray a fd).status = .opened ∨ (s.fdArray a fd).status = .closed :=
    hst.imp_left And.left
  unfold fdArrayRelease
  rw [safe_get_bind, safe_assert_bind hst', safe_assert_bind hpos, safe_modify_bind]
  split
  · rename_i hlast
    have hcl : (s.fdArray a fd).status = .closed := hst.resolve_left fun e => by omega
    refine fdArrayFree_closed (hC.set hlt hmine (.releasedLast hb hf hr hn hlast hcl hnode hfree))
      hlt rfl rfl rfl ?_ fun hold' s' hC' _ => ?_
    · rw [setFile_self]
      exact hnode
    · refine hQ hold' s' ?_
      rw [← Hold.quiet (h := { h with busy := none }) hf hr hn]
      exact hC'
  · rename_i hmore
    exact hQ _ _ (hC.set hlt hmine (.released hb hpos hmore hst' hfree))

theorem fdArrayClose_safe (hC : Conserved creates base (update hold p h) s)
    (hlt : fd < filesStructNentry) (hmine : s.filesp p = some a ∨ ∃ i, h.owned = some (a, i))
    (hst : (s.fdArray a fd).status = .opened) (hf : h.freeing = none) (hr : h.ref = none)
    (hn : h.opn = none) (hfree : ∀ i, h.owned = some (a, i) → i ≤ fd)
    (hQ : ∀ hold' s', Conserved creates base (update hold' p h) s' →
      ((s.fdArray a fd).openCount = 1 → (s'.fdArray a fd).status = .none) → Q (.ok ()) hold' s') :
    Coop.Safe (Conserved creates base) p creates Q (fdArrayClose a fd) hold s := by
  obtain ⟨hpos, node, hnode⟩ := hC.of_opened hlt hst
  unfold fdArrayClose
  rw [safe_get_bind, safe_assert_bind hst, safe_assert_bind hpos, safe_modify_bind]
  split
  · rename_i hlast
    refine fdArrayFree_closed (hC.set hlt hmine (.closedLast hst hf hr hn hlast hnode hfree)) hlt
      rfl rfl rfl ?_ fun hold' s' hC' hst' => ?_
    · rw [setFile_self]
      exact hnode
    · refine hQ hold' s' ?_ fun _ => hst'
      rw [← Hold.quiet hf hr hn]
      exact hC'
  · rename_i hmore
    exact hQ _ _ (hC.set hlt hmine (.closed hst hpos hmore hfree)) fun e => absurd e (by omega)

/-! ## `vfs_open` -/

section
variable {flags : FileTable.OpenFlags}

omit [DecidableEq P] [DecidableEq S] [DecidableEq V] [Fintype P] [Fintype S] in
theorem Hold.noRef (hr : h.ref = none) : { h with ref := none } = h := by
  cases h
  subst hr
  rfl

omit [DecidableEq P] [DecidableEq S] [DecidableEq V] [Fintype P] [Fintype S] in
theorem Hold.closed (hr : h.ref = none) (hn : h.opn = none) :
    { h with ref := none, opn := none } = h := by
  cases h
  subst hr hn
  rfl

theorem vfsFind_safe {R : Except Errno (V × Except Errno Unit) → (P → Hold S V) →
      SharedFiles P S V → Prop} (hC : Conserved creates base (update hold p h) s)
    (hr : h.ref = none)
    (hcr : flags.creat = true → creates)
    (hok : ∀ node r hold' s', Conserved creates base
      (update hold' p { h with ref := some node }) s' → R (.ok (node, r)) hold' s')
    (herr : ∀ e hold' s', Conserved creates base (update hold' p h) s' → R (.error e) hold' s') :
    Coop.Safe (Conserved creates base) p creates R (vfsFind flags) hold s := by
  unfold vfsFind
  refine safe_ask_bind hC fun ans hold₁ s₁ hp₁ hC₁ => ?_
  rw [← update_eq_self p hold₁, hp₁] at hC₁
  cases ans.lookup with
  | error e =>
    simp only
    split
    · rename_i hc
      refine safe_ask_bind hC₁ fun ans hold₂ s₂ hp₂ hC₂ => ?_
      rw [← update_eq_self p hold₂, hp₂] at hC₂
      cases ans.parent with
      | error e => exact herr e hold₂ s₂ hC₂
      | ok dir => exact hcr hc.2
    · exact herr e hold₁ s₁ hC₁
  | ok node =>
    have hC' := hC₁.refInc (v := node) hr
    simp only
    refine safe_modify_bind.2 ?_
    split
    · rename_i hc
      have hl := hC'.leak (hcr hc.2) rfl
      rw [← Hold.noRef hr] at herr
      exact herr _ _ _ hl
    · exact hok node ans.opened hold₁ _ hC'

theorem vfsOpen_safe {R : Except Errno V → (P → Hold S V) → SharedFiles P S V → Prop}
    (hC : Conserved creates base (update hold p h) s) (hr : h.ref = none) (hn : h.opn = none)
    (hcr : flags.creat = true → creates)
    (hok : ∀ node hold' s', Conserved creates base
      (update hold' p { h with ref := some node, opn := some node }) s' → R (.ok node) hold' s')
    (herr : ∀ e hold' s', Conserved creates base (update hold' p h) s' → R (.error e) hold' s') :
    Coop.Safe (Conserved creates base) p creates R (vfsOpen flags) hold s := by
  unfold vfsOpen
  split
  · exact herr _ hold s hC
  refine safe_bind.2 (vfsFind_safe hC hr hcr (fun node r hold₁ s₁ hC₁ => ?_) herr)
  cases r with
  | error e =>
    refine safe_bind.2 (vopRefDec_safe hC₁ rfl fun hold₂ s₂ hC₂ => ?_)
    rw [← Hold.noRef hr] at herr
    exact herr _ _ _ hC₂
  | ok _ =>
    refine safe_modify_bind.2 ?_
    have hC' := hC₁.openInc (v := node) hn
    split
    · refine safe_ask_bind hC' fun ans hold₂ s₂ hp₂ hC₂ => ?_
      rw [← update_eq_self p hold₂, hp₂] at hC₂
      cases ans.truncate with
      | error e =>
        refine safe_bind.2 (vopOpenDec_safe hC₂ rfl fun hold₃ s₃ hC₃ => ?_)
        refine safe_bind.2 (vopRefDec_safe hC₃ rfl fun hold₄ s₄ hC₄ => ?_)
        rw [← Hold.closed hr hn] at herr
        exact herr _ _ _ hC₄
      | ok _ => exact hok node hold₂ s₂ hC₂
    · exact hok node hold₁ _ hC'

end

/-! ## Finding an item -/

section
omit [DecidableEq V] [Fintype P] [Fintype S]

omit [DecidableEq P] in
theorem putTable_table : putTable a s (table a s) = s := by
  simp [putTable, table]

variable {β : Type} {I : (P → Hold S V) → SharedFiles P S V → Prop} {f : α → FilesCode P S V β}
  {R : Except Errno β → (P → Hold S V) → SharedFiles P S V → Prop} {x : FileCode V α}
  {t : FileTable V} {b : α} {e : Errno}

theorem onTable_bind (hx : x (table a s) = some (.ok b, t)) :
    Coop.Safe I p creates R (onTable a x >>= f) hold s ↔
      Coop.Safe I p creates R (f b) hold (putTable a s t) :=
  safe_atomic_bind (Code.on_run hx)

theorem onTable_throw (hx : x (table a s) = some (.error e, t)) :
    Coop.Safe I p creates R (onTable a x >>= f) hold s ↔ R (.error e) hold (putTable a s t) :=
  safe_atomic_throw (Code.on_run hx)

omit [DecidableEq S] in
theorem getFdArray_bind {f : S → FilesCode P S V β} (hp : s.filesp p = some a)
    (hpos : 0 < s.filesCount a) :
    Coop.Safe I p creates R (getFdArray p >>= f) hold s ↔ Coop.Safe I p creates R (f a) hold s := by
  unfold getFdArray
  rw [safe_bind, safe_get_bind, hp]
  exact safe_assert_bind hpos

end

omit [DecidableEq V] in
/-- What `fd_array_alloc` finds. -/
theorem alloc_cases (want : Option ℕ) (t : FileTable V) :
    (∃ e, want.elim FileTable.fdArrayAlloc fdArrayAllocAt t = some (.error e, t)) ∨
      ∃ k < filesStructNentry, (t.fdArray k).status = .none ∧
        ((t.fdArray k).openCount = 0 →
          want.elim FileTable.fdArrayAlloc fdArrayAllocAt t = some (.ok k, { t with
            fdArray := update t.fdArray k
              { t.fdArray k with status := .init, node := none } })) := by
  cases want with
  | none =>
    change (∃ e, FileTable.fdArrayAlloc t = _) ∨ ∃ k < _, _ ∧ (_ → FileTable.fdArrayAlloc t = _)
    unfold FileTable.fdArrayAlloc
    cases hf : (List.range filesStructNentry).find? fun fd => (t.fdArray fd).status = .none with
    | none =>
      refine .inl ⟨.maxOpen, ?_⟩
      rw [Code.bind_ok (rfl : (Code.get : FileCode V _) t = _), hf]
      rfl
    | some k =>
      refine .inr ⟨k, List.mem_range.1 (List.mem_of_find?_eq_some hf), by
        simpa using List.find?_some hf, fun hc => ?_⟩
      rw [Code.bind_ok (rfl : (Code.get : FileCode V _) t = _), hf]
      exact Code.assert_bind hc
  | some k =>
    change (∃ e, fdArrayAllocAt k t = _) ∨ ∃ k' < _, _ ∧ (_ → fdArrayAllocAt k t = _)
    unfold fdArrayAllocAt
    rw [Code.bind_ok (rfl : (Code.get : FileCode V _) t = _)]
    by_cases hk : k < filesStructNentry
    · by_cases hst : (t.fdArray k).status = .none
      · refine .inr ⟨k, hk, hst, fun hc => ?_⟩
        rw [if_pos hk, if_pos hst]
        exact Code.assert_bind hc
      · exact .inl ⟨.busy, by rw [if_pos hk, if_neg hst]; rfl⟩
    · exact .inl ⟨.inval, by rw [if_neg hk]; rfl⟩

theorem fdArrayAlloc_safe {R : Except Errno (S × ℕ) → (P → Hold S V) → SharedFiles P S V → Prop}
    (hC : Conserved creates base (update hold p h) s) (hp : s.filesp p = some a)
    (ho : h.opening = none) (hw : h.owned = none) {want : Option ℕ}
    (hok : ∀ k < filesStructNentry, (s.fdArray a k).status = .none →
      Conserved creates base (update hold p { h with opening := some (a, k) })
        (s.setFile a k { s.fdArray a k with status := .init, node := none }) →
      R (.ok (a, k)) hold (s.setFile a k { s.fdArray a k with status := .init, node := none }))
    (herr : ∀ e, R (.error e) hold s) :
    Coop.Safe (Conserved creates base) p creates R (fdArrayAlloc p want) hold s := by
  unfold fdArrayAlloc
  rw [getFdArray_bind hp (hC.pos_of_filesp hp)]
  obtain ⟨e, hx⟩ | ⟨k, hk, hst, hx⟩ := alloc_cases want (table a s)
  · refine (onTable_throw hx).2 ?_
    rw [putTable_table]
    exact herr e
  · refine (onTable_bind (hx ((hC.slot a k hk).none hst).1)).2 (hok k hk hst ?_)
    exact hC.set hk (.inl hp) (.alloc ho hst rfl rfl rfl fun i hi => by
      cases hw.symm.trans hi)

theorem fd2file_safe {R : Except Errno (S × File V) → (P → Hold S V) → SharedFiles P S V → Prop}
    (hC : Conserved creates base (update hold p h) s) (hp : s.filesp p = some a)
    (hok : fd < filesStructNentry → (s.fdArray a fd).status = .opened →
      R (.ok (a, s.fdArray a fd)) hold s)
    (herr : ∀ e, R (.error e) hold s) :
    Coop.Safe (Conserved creates base) p creates R (fd2file p fd) hold s := by
  unfold fd2file
  split
  · rename_i hlt
    rw [getFdArray_bind hp (hC.pos_of_filesp hp)]
    by_cases hst : (s.fdArray a fd).status = .opened ∧ (s.fdArray a fd).fd = fd
    · have hx : FileTable.fd2file fd (table a s) = some (.ok (s.fdArray a fd), table a s) := by
        unfold FileTable.fd2file
        rw [Code.bind_ok (rfl : (Code.get : FileCode V _) _ = _), if_pos ⟨hlt, hst⟩]
        rfl
      refine (onTable_bind hx).2 ?_
      rw [putTable_table]
      exact hok hlt hst.1
    · have hx : FileTable.fd2file fd (table a s) = some (.error .inval, table a s) := by
        unfold FileTable.fd2file
        rw [Code.bind_ok (rfl : (Code.get : FileCode V _) _ = _), if_neg fun h => hst h.2]
        rfl
      refine (onTable_throw hx).2 ?_
      rw [putTable_table]
      exact herr .inval
  · exact herr .inval

/-! ## Opening -/

/-- The item with its inode, open. -/
def openFile (file : File V) (pos : ℤ) (readable writable : Bool) (node : V) : File V :=
  { file with
    pos := pos
    readable := readable
    writable := writable
    node := some node
    status := .opened
    openCount := file.openCount + 1 }

omit [DecidableEq V] [Fintype P] [Fintype S] [DecidableEq P] in
/-- `fd_array_open` of an item that has got its inode. -/
theorem fdArrayOpen_run (hst : (s.fdArray a fd).status = .init) {pos : ℤ}
    {readable writable : Bool} :
    Code.on (table a) (putTable a) (FileTable.fdArrayOpen fd) (s.setFile a fd { s.fdArray a fd with
      pos := pos, node := some node, readable := readable, writable := writable }) =
        some (.ok (), s.setFile a fd (openFile (s.fdArray a fd) pos readable writable node)) := by
  have hfile : (table a (s.setFile a fd { s.fdArray a fd with
      pos := pos, node := some node, readable := readable, writable := writable })).fdArray fd =
        { s.fdArray a fd with
          pos := pos, node := some node, readable := readable, writable := writable } :=
    setFile_self
  have hrun : FileTable.fdArrayOpen fd (table a (s.setFile a fd { s.fdArray a fd with
      pos := pos, node := some node, readable := readable, writable := writable })) =
        some (.ok (), table a (s.setFile a fd
          (openFile (s.fdArray a fd) pos readable writable node))) := by
    unfold FileTable.fdArrayOpen
    rw [Code.bind_ok (rfl : (Code.get : FileCode V _) _ = _), Code.assert_bind (by
      rw [hfile]
      exact ⟨hst, Option.some_ne_none node⟩), hfile]
    simp [FileTable.setFile, Code.modify, table, setFile, openFile]
  rw [Code.on_run hrun]
  simp [putTable, table, setFile]

theorem Conserved.openItem (hC : Conserved creates base (update hold p h) s)
    (hlt : fd < filesStructNentry) (ho : h.opening = some (a, fd)) (hr : h.ref = some node)
    (hn : h.opn = some node) (hfree : ∀ i, h.owned = some (a, i) → i ≤ fd) (pos : ℤ)
    (readable writable : Bool) :
    Conserved creates base (update hold p { h with opening := none, ref := none, opn := none })
      (s.setFile a fd (openFile (s.fdArray a fd) pos readable writable node)) :=
  hC.set hlt (hC.mine_self (.inl ho))
    (.opened ho hr hn (hC.of_opening hlt ho).1 rfl rfl rfl rfl hfree)

theorem openPos_safe {flags : FileTable.OpenFlags}
    {R : Except Errno ℤ → (P → Hold S V) → SharedFiles P S V → Prop}
    (hC : Conserved creates base (update hold p h) s) (hlt : fd < filesStructNentry)
    (ho : h.opening = some (a, fd)) (hr : h.ref = some node) (hn : h.opn = some node)
    (hok : ∀ pos hold' s', Conserved creates base (update hold' p h) s' → R (.ok pos) hold' s')
    (herr : ∀ e hold' s', Conserved creates base
      (update hold' p { h with ref := none, opn := none, opening := none }) s' →
      R (.error e) hold' s') :
    Coop.Safe (Conserved creates base) p creates R (openPos flags node a fd) hold s := by
  unfold openPos
  split
  · refine safe_ask_bind hC fun ans hold₁ s₁ hp₁ hC₁ => ?_
    rw [← update_eq_self p hold₁, hp₁] at hC₁
    cases ans.size with
    | error e =>
      refine safe_bind.2 (vfsClose_safe hC₁ hr hn fun hold₂ s₂ hC₂ => ?_)
      exact safe_bind.2 (fdArrayFree_init hC₂ hlt ho fun s₃ hC₃ => herr e _ _ hC₃)
    | ok n => exact hok n hold₁ s₁ hC₁
  · exact hok 0 hold s hC

theorem fileOpen_safe {flags : FileTable.OpenFlags}
    {R : Except Errno ℕ → (P → Hold S V) → SharedFiles P S V → Prop}
    (hC : Conserved creates base (update hold p {}) s) (hp : s.filesp p = some a)
    (hcr : flags.creat = true → creates)
    (hR : ∀ r hold' s', Conserved creates base (update hold' p {}) s' → R r hold' s') :
    Coop.Safe (Conserved creates base) p creates R (fileOpen p flags) hold s := by
  unfold fileOpen
  split
  · exact hR _ hold s hC
  refine safe_bind.2 (fdArrayAlloc_safe hC hp rfl rfl (fun fd hlt _ hC₁ => ?_)
    fun e => hR _ hold s hC)
  refine safe_attempt_bind.2 (vfsOpen_safe hC₁ rfl rfl hcr (fun node hold₂ s₂ hC₂ => ?_)
    fun e hold₂ s₂ hC₂ => ?_)
  · refine safe_bind.2 (openPos_safe hC₂ hlt rfl rfl rfl (fun pos hold₃ s₃ hC₃ => ?_)
      fun e hold₃ s₃ hC₃ => hR _ _ _ hC₃)
    obtain ⟨hst, -⟩ := hC₃.of_opening hlt rfl
    refine safe_modify_bind.2 ((safe_atomic_bind (fdArrayOpen_run hst)).2 ?_)
    exact hR _ _ _ (hC₃.openItem hlt rfl rfl rfl nofun _ _ _)
  · exact safe_bind.2 (fdArrayFree_init hC₂ hlt rfl fun s₃ hC₃ => hR _ _ _ hC₃)

theorem fileClose_safe (hC : Conserved creates base (update hold p {}) s)
    (hp : s.filesp p = some a)
    (hQ : ∀ r hold' s', Conserved creates base (update hold' p {}) s' → Q r hold' s') :
    Coop.Safe (Conserved creates base) p creates Q (fileClose p fd) hold s := by
  unfold fileClose
  refine safe_bind.2 (fd2file_safe hC hp (fun hlt hst => ?_) fun e => hQ _ hold s hC)
  exact fdArrayClose_safe hC hlt (.inl hp) hst rfl rfl rfl nofun fun hold' s' hC' _ =>
    hQ _ _ _ hC'

/-! ## Using -/

omit [DecidableEq V] [Fintype P] [Fintype S] [DecidableEq P] in
theorem acquire_run (hst : (s.fdArray a fd).status = .opened) :
    Code.on (table a) (putTable a) (FileTable.fdArrayAcquire fd) s = some (.ok (),
      s.setFile a fd { s.fdArray a fd with openCount := (s.fdArray a fd).openCount + 1 }) := by
  have hrun : FileTable.fdArrayAcquire fd (table a s) = some (.ok (), table a
      (s.setFile a fd { s.fdArray a fd with openCount := (s.fdArray a fd).openCount + 1 })) := by
    have hst' : ((table a s).fdArray fd).status = .opened := hst
    unfold FileTable.fdArrayAcquire
    rw [Code.bind_ok (rfl : (Code.get : FileCode V _) _ = _), Code.assert_bind hst']
    simp [FileTable.setFile, Code.modify, table, setFile]
  rw [Code.on_run hrun]
  simp [putTable, table, setFile]

/-- The process uses an open item. -/
theorem Conserved.acquire (hC : Conserved creates base (update hold p {}) s)
    (hp : s.filesp p = some a) (hlt : fd < filesStructNentry)
    (hst : (s.fdArray a fd).status = .opened) :
    Conserved creates base (update hold p { busy := some (a, fd) })
      (s.setFile a fd { s.fdArray a fd with openCount := (s.fdArray a fd).openCount + 1 }) :=
  hC.set hlt (.inl hp) (.acquired rfl hst nofun)

theorem fileMove_safe {may : File V → Bool}
    {R : Except Errno (ℕ × Except Errno Unit) → (P → Hold S V) → SharedFiles P S V → Prop}
    (hC : Conserved creates base (update hold p {}) s) (hp : s.filesp p = some a)
    (hR : ∀ r hold' s', Conserved creates base (update hold' p {}) s' → R r hold' s') :
    Coop.Safe (Conserved creates base) p creates R (fileMove may p fd) hold s := by
  unfold fileMove
  refine safe_attempt_bind.2 (fd2file_safe hC hp (fun hlt hst => ?_) fun e => hR _ hold s hC)
  simp only
  split
  · exact hR _ hold s hC
  refine (safe_atomic_bind (acquire_run hst)).2 ?_
  refine safe_ask_bind (hC.acquire hp hlt hst) fun ans hold₁ s₁ hp₁ hC₁ => ?_
  rw [← update_eq_self p hold₁, hp₁] at hC₁
  have hC₂ : Conserved creates base (update hold₁ p { busy := some (a, fd) })
      (advance a fd ans.moved.copied s₁) := by
    unfold advance
    split
    · exact hC₁.set hlt (hC₁.mine_self (.inr (.inl rfl))) (.posed _ nofun)
    · exact hC₁
  refine safe_modify_bind.2 ?_
  exact safe_bind.2 (fdArrayRelease_safe hC₂ hlt rfl rfl rfl rfl rfl fun hold₃ s₃ hC₃ =>
    hR _ _ _ hC₃)

theorem fileAsk_safe
    {R : Except Errno (Except Errno Unit) → (P → Hold S V) → SharedFiles P S V → Prop}
    (hC : Conserved creates base (update hold p {}) s) (hp : s.filesp p = some a)
    (hR : ∀ r hold' s', Conserved creates base (update hold' p {}) s' → R r hold' s') :
    Coop.Safe (Conserved creates base) p creates R (fileAsk p fd) hold s := by
  unfold fileAsk
  refine safe_bind.2 (fd2file_safe hC hp (fun hlt hst => ?_) fun e => hR _ hold s hC)
  refine (safe_atomic_bind (acquire_run hst)).2 ?_
  refine safe_ask_bind (hC.acquire hp hlt hst) fun ans hold₁ s₁ hp₁ hC₁ => ?_
  rw [← update_eq_self p hold₁, hp₁] at hC₁
  exact safe_bind.2 (fdArrayRelease_safe hC₁ hlt rfl rfl rfl rfl rfl fun hold₃ s₃ hC₃ =>
    hR _ _ _ hC₃)

theorem fileSeek_safe {pos : ℤ} {whence : Whence}
    {R : Except Errno (Except Errno Unit) → (P → Hold S V) → SharedFiles P S V → Prop}
    (hC : Conserved creates base (update hold p {}) s) (hp : s.filesp p = some a)
    (hR : ∀ r hold' s', Conserved creates base (update hold' p {}) s' → R r hold' s') :
    Coop.Safe (Conserved creates base) p creates R (fileSeek p fd pos whence) hold s := by
  unfold fileSeek
  refine safe_bind.2 (fd2file_safe hC hp (fun hlt hst => ?_) fun e => hR _ hold s hC)
  refine (safe_atomic_bind (acquire_run hst)).2 ?_
  have hrel : ∀ r hold₁ s₁, Conserved creates base (update hold₁ p { busy := some (a, fd) }) s₁ →
      Coop.Safe (Conserved creates base) p creates R (fdArrayRelease a fd >>= fun _ => pure r) hold₁
        s₁ := fun r hold₁ s₁ hC₁ => safe_bind.2 (fdArrayRelease_safe hC₁ hlt rfl rfl rfl rfl rfl
      fun hold₃ s₃ hC₃ => hR _ _ _ hC₃)
  have htry : ∀ pos hold₁ s₁, Conserved creates base (update hold₁ p { busy := some (a, fd) }) s₁ →
      Coop.Safe (Conserved creates base) p creates
        (fun r => Coop.Safe (Conserved creates base) p creates R
          (fdArrayRelease a fd >>= fun _ => pure r)) (trySeek a fd pos) hold₁ s₁ := by
    intro pos hold₁ s₁ hC₁
    refine safe_ask_bind hC₁ fun ans hold₂ s₂ hp₂ hC₂ => ?_
    rw [← update_eq_self p hold₂, hp₂] at hC₂
    cases ans.ret with
    | error e => exact hrel _ hold₂ s₂ hC₂
    | ok _ =>
      refine safe_modify.2 (hrel _ hold₂ _ ?_)
      exact hC₂.set hlt (hC₂.mine_self (.inr (.inl rfl))) (.posed pos nofun)
  have hC₁ := hC.acquire hp hlt hst
  refine safe_attempt_bind.2 (safe_bind.2 ?_)
  cases whence with
  | set => exact htry pos hold _ hC₁
  | cur => exact htry _ hold _ hC₁
  | end_ =>
    refine safe_ask_bind hC₁ fun ans hold₂ s₂ hp₂ hC₂ => ?_
    rw [← update_eq_self p hold₂, hp₂] at hC₂
    cases ans.size with
    | error e => exact hrel _ hold₂ s₂ hC₂
    | ok n => exact htry _ hold₂ s₂ hC₂
  | other => exact hrel _ hold _ hC₁

/-! ## Copying -/

/-- Only the item `z`, and counts of inodes, have changed. -/
structure Touched (z : S × ℕ) (s s' : SharedFiles P S V) : Prop where
  fdArray : ∀ y, y ≠ z → s'.fdArray y.1 y.2 = s.fdArray y.1 y.2
  pwd : s'.pwd = s.pwd
  filesCount : s'.filesCount = s.filesCount
  filesp : s'.filesp = s.filesp

theorem fdArrayDup_safe {to_ from_ : S × ℕ} (hC : Conserved creates base (update hold p h) s)
    (hlt : to_.2 < filesStructNentry) (hlt' : from_.2 < filesStructNentry)
    (ho : h.opening = some to_) (hr : h.ref = none) (hn : h.opn = none)
    (hfree : ∀ i, h.owned = some (to_.1, i) → i ≤ to_.2)
    (hst : (s.fdArray from_.1 from_.2).status = .opened)
    (hQ : ∀ s', Conserved creates base (update hold p { h with opening := none }) s' →
      Touched to_ s s' → Q (.ok ()) hold s') :
    Coop.Safe (Conserved creates base) p creates Q (fdArrayDup to_ from_) hold s := by
  obtain ⟨-, node, hnode⟩ := hC.of_opened hlt' hst
  obtain ⟨hst', -⟩ := hC.of_opening hlt ho
  unfold fdArrayDup
  rw [safe_get_bind, safe_assert_bind ⟨hst', hst⟩, hnode]
  refine safe_modify_bind.2 (safe_modify_bind.2 (safe_modify_bind.2 ?_))
  have hC' := (hC.refInc (v := node) hr).openInc (v := node) hn
  have hopen := hC'.openItem (a := to_.1) hlt ho rfl rfl hfree
    (s.fdArray from_.1 from_.2).pos (s.fdArray from_.1 from_.2).readable
    (s.fdArray from_.1 from_.2).writable
  refine (safe_atomic (fdArrayOpen_run (hC'.of_opening (a := to_.1) hlt ho).1)).2
    (hQ _ ?_ ⟨fun y hy => setFile_of_ne hy, rfl, rfl, rfl⟩)
  have e := Hold.closed (h := { h with opening := none }) hr hn
  rw [← e]
  exact hopen

theorem fileDup_safe {want : Option ℕ}
    {R : Except Errno ℕ → (P → Hold S V) → SharedFiles P S V → Prop}
    (hC : Conserved creates base (update hold p {}) s) (hp : s.filesp p = some a)
    (hR : ∀ r hold' s', Conserved creates base (update hold' p {}) s' → R r hold' s') :
    Coop.Safe (Conserved creates base) p creates R (fileDup p fd want) hold s := by
  unfold fileDup
  refine safe_bind.2 (fd2file_safe hC hp (fun hlt hst => ?_) fun e => hR _ hold s hC)
  refine safe_bind.2 (fdArrayAlloc_safe hC hp rfl rfl (fun k hk hst' hC₁ => ?_)
    fun e => hR _ hold s hC)
  have hne : (a, fd) ≠ (a, k) := fun e => by
    cases e
    cases hst.symm.trans hst'
  refine safe_bind.2 (fdArrayDup_safe hC₁ hk hlt rfl rfl rfl nofun ?_ fun s' hC₂ _ => hR _ _ _ hC₂)
  rw [setFile_of_ne hne]
  exact hst

/-- A slot of the copy of an array. -/
theorem dupFile_safe {to_ from_ : S} (hC : Conserved creates base (update hold p h) s)
    (hne : to_ ≠ from_) (hlt : fd < filesStructNentry) (ho : h.opening = none) (hr : h.ref = none)
    (hn : h.opn = none) (hw : h.owned = some (to_, 0)) (hst : (s.fdArray to_ fd).status = .none)
    (hQ : ∀ s', Conserved creates base (update hold p h) s' → Touched (to_, fd) s s' →
      Q (.ok ()) hold s') :
    Coop.Safe (Conserved creates base) p creates Q (dupFile to_ from_ fd) hold s := by
  unfold dupFile
  rw [safe_get_bind]
  split
  · rename_i hopened
    have hne' : (from_, fd) ≠ (to_, fd) := fun e => hne (Prod.mk.inj e).1.symm
    have hfree : ∀ i, h.owned = some (to_, i) → i ≤ fd := fun i hi => by
      cases hw.symm.trans hi
      exact Nat.zero_le fd
    have hC₁ : Conserved creates base (update hold p { h with opening := some (to_, fd) })
        (s.setFile to_ fd { s.fdArray to_ fd with status := .init }) :=
      hC.set hlt (.inr ⟨0, hw⟩) (.alloc ho hst rfl rfl rfl hfree)
    refine safe_modify_bind.2 (fdArrayDup_safe hC₁ hlt hlt rfl hr hn hfree ?_ fun s' hC₂ ht => ?_)
    · rw [setFile_of_ne hne']
      exact hopened
    · have e : ({ h with opening := none } : Hold S V) = h := by
        cases h
        subst ho
        rfl
      refine hQ s' (e ▸ hC₂) ⟨fun y hy => ?_, ht.pwd, ht.filesCount, ht.filesp⟩
      exact (ht.fdArray y hy).trans (setFile_of_ne hy)
  · exact hQ s hC ⟨fun _ _ => rfl, rfl, rfl, rfl⟩

theorem dupFilesFrom_safe {to_ from_ : S} (hne : to_ ≠ from_) (ho : h.opening = none)
    (hr : h.ref = none) (hn : h.opn = none) (hw : h.owned = some (to_, 0)) {l : List ℕ}
    (hnd : l.Nodup) (hlt : ∀ fd ∈ l, fd < filesStructNentry)
    (hC : Conserved creates base (update hold p h) s)
    (hst : ∀ fd ∈ l, (s.fdArray to_ fd).status = .none)
    (hQ : ∀ s', Conserved creates base (update hold p h) s' → s'.pwd = s.pwd →
      s'.filesCount = s.filesCount → s'.filesp = s.filesp → Q (.ok ()) hold s') :
    Coop.Safe (Conserved creates base) p creates Q (dupFilesFrom to_ from_ l) hold s := by
  induction l generalizing s with
  | nil => exact hQ s hC rfl rfl rfl
  | cons fd l ih =>
    obtain ⟨hlt₁, hlt⟩ := List.forall_mem_cons.1 hlt
    obtain ⟨hst₁, hst⟩ := List.forall_mem_cons.1 hst
    obtain ⟨hnm, hnd⟩ := List.nodup_cons.1 hnd
    unfold dupFilesFrom
    refine safe_bind.2 (dupFile_safe hC hne hlt₁ ho hr hn hw hst₁ fun s' hC' ht => ?_)
    refine ih hnd hlt hC' (fun k hk => ?_) fun s'' hC'' h1 h2 h3 =>
      hQ s'' hC'' (h1.trans ht.pwd) (h2.trans ht.filesCount) (h3.trans ht.filesp)
    have hne' : (to_, k) ≠ (to_, fd) := fun e => hnm ((Prod.mk.inj e).2 ▸ hk)
    rw [ht.fdArray (to_, k) hne']
    exact hst k hk

end Ucore.SharedFiles
