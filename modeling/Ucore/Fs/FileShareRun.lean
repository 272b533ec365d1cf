/-
  Any number of processes that share descriptors, in any order of steps.

  * `filesDestroy_safe`, `doExit_safe`, `doFork_safe`, `vfsChdir_safe`: what the functions of
    `fs.c`, `do_fork`, `do_exit` and `vfs_chdir` do with what is conserved;
  * `request_safe`: every call keeps it;
  * `descriptors_conserved`: so it holds in every state that is reached;
  * `descriptors_no_panic`: no assertion of `file.c` and `fs.c` fails.
-/
import Ucore.Fs.FileShareSpec

namespace Ucore.SharedFiles

open Function Coop

variable {P S V : Type} [DecidableEq P] [DecidableEq S] [DecidableEq V] [Fintype P] [Fintype S]
  {creates : Prop} {base : V → ℕ} {hold : P → Hold S V} {s : SharedFiles P S V} {p : P}
  {h : Hold S V} {node : V} {a : S} {fd : ℕ}
  {Q : Except Errno Unit → (P → Hold S V) → SharedFiles P S V → Prop}

/-! ## Closing all items -/

theorem closeOpened_safe (hC : Conserved creates base (update hold p h) s)
    (hlt : fd < filesStructNentry) (hmine : s.filesp p = some a ∨ ∃ i, h.owned = some (a, i))
    (hf : h.freeing = none) (hr : h.ref = none) (hn : h.opn = none)
    (hfree : ∀ i, h.owned = some (a, i) → i ≤ fd)
    (hQ : ∀ hold' s', Conserved creates base (update hold' p h) s' →
      ((s.fdArray a fd).status = .none ∨
        (s.fdArray a fd).status = .opened ∧ (s.fdArray a fd).openCount = 1 →
        (s'.fdArray a fd).status = .none) → Q (.ok ()) hold' s') :
    Coop.Safe (Conserved creates base) p creates Q (closeOpened a fd) hold s := by
  unfold closeOpened
  rw [safe_get_bind]
  split
  · rename_i hst
    refine fdArrayClose_safe hC hlt hmine hst hf hr hn hfree fun hold' s' hC' hone => ?_
    refine hQ hold' s' hC' fun hor => hone ?_
    rcases hor with e | ⟨-, e⟩
    · cases hst.symm.trans e
    · exact e
  · rename_i hst
    exact hQ hold s hC fun hor => hor.resolve_right fun e => hst e.1

theorem closeallFrom_safe (hf : h.freeing = none) (hr : h.ref = none) (hn : h.opn = none)
    (hw : h.owned = none) (hfs : h.files = some a) {l : List ℕ}
    (hlt : ∀ fd ∈ l, fd < filesStructNentry) (hC : Conserved creates base (update hold p h) s)
    (hQ : ∀ hold' s', Conserved creates base (update hold' p h) s' → Q (.ok ()) hold' s') :
    Coop.Safe (Conserved creates base) p creates Q (closeallFrom a l) hold s := by
  induction l generalizing hold s with
  | nil => exact hQ hold s hC
  | cons fd l ih =>
    obtain ⟨hlt₁, hlt⟩ := List.forall_mem_cons.1 hlt
    unfold closeallFrom
    exact safe_bind.2 (closeOpened_safe hC hlt₁ (.inl (hC.works_self hfs)) hf hr hn
      (fun i hi => by cases hw.symm.trans hi) fun hold' s' hC' _ => ih hlt hC')

theorem filesCloseall_safe (hC : Conserved creates base (update hold p {}) s)
    (hp : s.filesp p = some a)
    (hQ : ∀ r hold' s', Conserved creates base (update hold' p {}) s' → Q r hold' s') :
    Coop.Safe (Conserved creates base) p creates Q (filesCloseall p) hold s := by
  unfold filesCloseall
  rw [getFdArray_bind hp (hC.pos_of_filesp hp)]
  have hC' := hC.setFiles (o := some a) fun b hb => by rwa [← hb]
  refine closeallFrom_safe rfl rfl rfl rfl rfl (fun fd hfd => ?_) hC' fun hold' s' hC'' => ?_
  · obtain ⟨-, hlt⟩ := List.mem_range'_1.1 hfd
    unfold filesStructNentry at hlt ⊢
    omega
  · exact hQ _ _ _ (hC''.setFiles (o := none) nofun)

/-! ## The end of a `files_struct` -/

/-- Nobody else uses its items. -/
theorem Conserved.unshared (hC : Conserved creates base (update hold p h) s) {i : ℕ}
    (hw : h.owned = some (a, i)) (ho : h.opening = none ∧ h.busy = none ∧ h.freeing = none)
    (hlt : fd < filesStructNentry) : (s.fdArray a fd).status = .none ∨
      (s.fdArray a fd).status = .opened ∧ (s.fdArray a fd).openCount = 1 := by
  have hnone : ∀ q, (update hold p h q).opening ≠ some (a, fd) ∧
      (update hold p h q).busy ≠ some (a, fd) ∧ (update hold p h q).freeing ≠ some (a, fd) := by
    have hno : ∀ q, ¬((update hold p h q).opening = some (a, fd) ∨
        (update hold p h q).busy = some (a, fd) ∨ (update hold p h q).freeing = some (a, fd)) := by
      intro q hz
      rcases hC.mine q (a, fd) hz with hq | ⟨j, hj⟩
      · have hpos := hC.pos_of_filesp hq
        rw [(hC.owned_self hw).2.1] at hpos
        exact lt_irrefl _ hpos
      · obtain rfl := hC.owner_unique hw hj
        rw [update_self] at hz
        simp [ho] at hz
    exact fun q => ⟨fun e => hno q (.inl e), fun e => hno q (.inr (.inl e)),
      fun e => hno q (.inr (.inr e))⟩
  have hs := hC.slot a fd hlt
  rw [holders_eq_zero.2 fun q => (hnone q).1, holders_eq_zero.2 fun q => (hnone q).2.1,
    holders_eq_zero.2 fun q => (hnone q).2.2] at hs
  cases hst : (s.fdArray a fd).status with
  | none => exact .inl rfl
  | init => have := hs.init hst; omega
  | opened => exact .inr ⟨rfl, by have := hs.opened hst; omega⟩
  | closed => have := hs.closed hst; omega

theorem destroyFrom_safe (ho : h.opening = none ∧ h.busy = none ∧ h.freeing = none)
    (hr : h.ref = none) (hn : h.opn = none) {n i : ℕ} (hi : i + n = filesStructNentry)
    (hC : Conserved creates base (update hold p { h with owned := some (a, i) }) s)
    (hQ : ∀ hold' s', Conserved creates base
      (update hold' p { h with owned := some (a, filesStructNentry) }) s' → Q (.ok ()) hold' s') :
    Coop.Safe (Conserved creates base) p creates Q (destroyFrom a (List.range' i n)) hold s := by
  induction n generalizing i hold s with
  | zero =>
    obtain rfl : i = filesStructNentry := hi
    exact hQ hold s hC
  | succ n ih =>
    have hlt : i < filesStructNentry := by omega
    rw [List.range'_succ]
    unfold destroyFrom
    refine safe_bind.2 (closeOpened_safe hC hlt (.inr ⟨i, rfl⟩) ho.2.2 hr hn (fun j hj => ?_)
      fun hold' s' hC' hst => ?_)
    · cases hj
      exact le_rfl
    · have hst' := hst (hC.unshared rfl ho hlt)
      refine safe_get_bind.2 ((safe_assert_bind hst').2 ?_)
      exact ih (by omega) (hC'.progress rfl hst')

theorem releasePwd_safe {o : Option V} (hC : Conserved creates base (update hold p h) s)
    (hc : h.cwd = o)
    (hQ : ∀ hold' s', Conserved creates base (update hold' p { h with cwd := none }) s' →
      Q (.ok ()) hold' s') :
    Coop.Safe (Conserved creates base) p creates Q (releasePwd o) hold s := by
  cases o with
  | none =>
    refine hQ hold s ?_
    cases h
    subst hc
    exact hC
  | some node => exact vopCwdDec_safe hC hc hQ

theorem filesDestroy_safe (hC : Conserved creates base (update hold p h) s)
    (ho : h.opening = none ∧ h.busy = none ∧ h.freeing = none) (hr : h.ref = none)
    (hn : h.opn = none) (hw : h.owned = some (a, 0)) (hc : h.cwd = s.pwd a)
    (hQ : ∀ hold' s', Conserved creates base
      (update hold' p { h with cwd := none, owned := some (a, filesStructNentry) }) s' →
      Q (.ok ()) hold' { s' with used := update s'.used a false }) :
    Coop.Safe (Conserved creates base) p creates Q (filesDestroy a) hold s := by
  unfold filesDestroy
  rw [safe_get_bind, safe_assert_bind (hC.owned_self hw).2.1]
  refine safe_bind.2 (releasePwd_safe hC hc fun hold₁ s₁ hC₁ => ?_)
  rw [List.range_eq_range']
  refine safe_bind.2 (destroyFrom_safe (h := { h with cwd := none }) ho hr hn (Nat.zero_add _) ?_
    fun hold₂ s₂ hC₂ => ?_)
  · rw [← hw]
    exact hC₁
  · exact hQ hold₂ s₂ hC₂

theorem doExit_safe (hC : Conserved creates base (update hold p {}) s) (hp : s.filesp p = some a)
    {mm : Bool} (hQ : ∀ r hold' s', Conserved creates base (update hold' p {}) s' → Q r hold' s') :
    Coop.Safe (Conserved creates base) p creates Q (doExit p mm) hold s := by
  unfold doExit
  cases mm with
  | false => exact hQ _ hold _ (hC.setAlive nofun)
  | true =>
    refine safe_bind.2 ?_
    rw [if_pos rfl]
    unfold putFiles
    rw [safe_get_bind, hp]
    refine safe_modify_bind.2 ?_
    split
    · rename_i hlast
      have hC' := hC.putLast hp hlast ⟨rfl, rfl, rfl⟩ rfl rfl
      exact filesDestroy_safe hC' ⟨rfl, rfl, rfl⟩ rfl rfl rfl rfl fun hold' s' hC'' =>
        hQ _ hold' _ (hC''.kfree rfl ⟨rfl, rfl, rfl⟩)
    · rename_i hmore
      exact hQ _ hold _ (hC.put hp hmore ⟨rfl, rfl, rfl⟩ rfl)

/-! ## A new process -/

theorem retainPwd_safe {o : Option V} (hC : Conserved creates base (update hold p h) s)
    (hc : h.cwd = none)
    (hQ : ∀ s', Conserved creates base (update hold p { h with cwd := o }) s' →
      s'.fdArray = s.fdArray → s'.pwd = s.pwd → s'.filesCount = s.filesCount →
      s'.filesp = s.filesp → Q (.ok ()) hold s') :
    Coop.Safe (Conserved creates base) p creates Q (retainPwd o) hold s := by
  cases o with
  | none =>
    refine hQ s ?_ rfl rfl rfl rfl
    cases h
    subst hc
    exact hC
  | some node => exact hQ _ (hC.cwdInc hc) rfl rfl rfl rfl

theorem childFiles_safe {old : S} {share : Bool} {fresh : Option S}
    {R : Except Errno S → (P → Hold S V) → SharedFiles P S V → Prop}
    (hC : Conserved creates base (update hold p {}) s) (hp : s.filesp p = some old)
    (hfresh : ∀ a, fresh = some a → s.used a = false)
    (herr : ∀ e, R (.error e) hold s)
    (hok : ∀ a h' s', Conserved creates base (update hold p h') s' → s'.filesp = s.filesp →
      h'.opening = none ∧ h'.busy = none ∧ h'.freeing = none →
      (h'.cwd = none ∧ h'.owned = none ∧ 0 < s'.filesCount a) ∨
        h'.cwd = s'.pwd a ∧ h'.owned = some (a, 0) →
      { h' with cwd := none, owned := none } = ({} : Hold S V) → R (.ok a) hold s') :
    Coop.Safe (Conserved creates base) p creates R (childFiles old share fresh) hold s := by
  have hpos := hC.pos_of_filesp hp
  unfold childFiles
  split
  · exact hok old {} s hC rfl ⟨rfl, rfl, rfl⟩ (.inl ⟨rfl, rfl, hpos⟩) rfl
  cases fresh with
  | none => exact herr .noMem
  | some a =>
    have hnew := hfresh a rfl
    have hne : a ≠ old := fun e => by
      subst e
      rw [(hC.unused a hnew).1] at hpos
      exact lt_irrefl _ hpos
    have hC₁ := hC.create rfl hnew
    have hcount : (update s.filesCount a 0) a = 0 ∧ 0 < (update s.filesCount a 0) old :=
      ⟨update_self .., by rwa [update_of_ne hne.symm]⟩
    have hpwd : (update s.pwd a none) old = s.pwd old := update_of_ne hne.symm ..
    refine safe_bind.2 (safe_modify_bind.2 (safe_pure.2 (safe_bind.2 ?_)))
    unfold dupFiles
    refine safe_get_bind.2 ((safe_assert_bind hcount).2 (safe_modify_bind.2 (safe_bind.2 ?_)))
    refine retainPwd_safe (hC₁.setPwd hcount.1 _) rfl fun s₂ hC₂ h1 h2 h3 h4 => ?_
    refine dupFilesFrom_safe hne rfl rfl rfl rfl List.nodup_range
      (fun fd hfd => List.mem_range.1 hfd) hC₂ (fun fd hfd => ?_) fun s₃ hC₃ h5 h6 h7 => ?_
    · rw [h1]
      simp [fdArrayInit, List.mem_range.1 hfd]
    · refine hok a _ s₃ hC₃ (h7.trans h4) ⟨rfl, rfl, rfl⟩ (.inr ⟨?_, rfl⟩) rfl
      rw [h5, h2]
      simp

theorem doFork_safe {child : P} {share : Bool} {fresh : Option S}
    (hC : Conserved creates base (update hold p {}) s) (hp : s.filesp p = some a)
    (hne : child ≠ p) (hchild : s.filesp child = none)
    (hfresh : ∀ a, fresh = some a → s.used a = false)
    (hQ : ∀ r hold' s', Conserved creates base (update hold' p {}) s' → Q r hold' s') :
    Coop.Safe (Conserved creates base) p creates Q (doFork p child share fresh) hold s := by
  unfold doFork copyFiles
  refine safe_bind.2 (safe_get_bind.2 ?_)
  rw [hp]
  refine safe_bind.2 (childFiles_safe hC hp hfresh (fun e => hQ _ hold s hC)
    fun b h' s' hC' hfs ho hb hh => ?_)
  refine hQ (.ok ()) hold _ ?_
  have hp' : s'.filesp p ≠ none := by
    rw [hfs, hp]
    exact Option.some_ne_none a
  have hC'' := hC'.adopt (hfs ▸ hchild) hne hp' ho hb
  rw [hh] at hC''
  refine hC''.setAlive fun _ => ?_
  simp

/-! ## The working directory -/

theorem vfsSetCurdir_safe {dir : V} (hC : Conserved creates base (update hold p h) s)
    (hf : h.files = some a) (hc : h.cwd = none)
    (hQ : ∀ r hold' s', Conserved creates base (update hold' p h) s' → Q r hold' s') :
    Coop.Safe (Conserved creates base) p creates Q (vfsSetCurdir p dir) hold s := by
  have hquiet : ({ h with cwd := none } : Hold S V) = h := by
    cases h
    subst hc
    rfl
  unfold vfsSetCurdir
  refine safe_ask_bind hC fun ans hold₁ s₁ hp₁ hC₁ => ?_
  rw [← update_eq_self p hold₁, hp₁] at hC₁
  have hp := hC₁.works_self hf
  rw [safe_get_bind, hp]
  simp only
  split
  · exact hQ _ hold₁ s₁ hC₁
  · rcases ans.isDir with e | _ | _
    · exact hQ _ hold₁ s₁ hC₁
    · exact hQ _ hold₁ s₁ hC₁
    · refine safe_modify_bind.2 (safe_modify_bind.2 ?_)
      have hC₂ := (hC₁.cwdInc (v := dir) hc).swapPwd (hC₁.pos_of_filesp hp) rfl
      refine releasePwd_safe hC₂ rfl fun hold₃ s₃ hC₃ => hQ _ hold₃ s₃ ?_
      rw [← hquiet]
      exact hC₃

theorem vfsChdir_safe
    {R : Except Errno (Except Errno Unit) → (P → Hold S V) → SharedFiles P S V → Prop}
    (hC : Conserved creates base (update hold p {}) s) (hp : s.filesp p = some a)
    (hR : ∀ r hold' s', Conserved creates base (update hold' p {}) s' → R r hold' s') :
    Coop.Safe (Conserved creates base) p creates R (vfsChdir p) hold s := by
  have hC' := hC.setFiles (o := some a) fun b hb => by rwa [← hb]
  unfold vfsChdir
  refine safe_ask_bind hC' fun ans hold₁ s₁ hp₁ hC₁ => ?_
  rw [← update_eq_self p hold₁, hp₁] at hC₁
  cases ans.lookup with
  | error e => exact hR _ _ _ (hC₁.setFiles (o := none) nofun)
  | ok node =>
    refine safe_modify_bind.2 (safe_attempt_bind.2 ?_)
    refine vfsSetCurdir_safe (hC₁.refInc (v := node) rfl) rfl rfl fun r hold₂ s₂ hC₂ => ?_
    refine safe_bind.2 (vopRefDec_safe hC₂ rfl fun hold₃ s₃ hC₃ => ?_)
    exact hR _ _ _ (hC₃.setFiles (o := none) nofun)

theorem vfsGetcwd_safe
    {R : Except Errno (Except Errno Unit) → (P → Hold S V) → SharedFiles P S V → Prop}
    (hC : Conserved creates base (update hold p {}) s) (hp : s.filesp p = some a)
    (hR : ∀ r hold' s', Conserved creates base (update hold' p {}) s' → R r hold' s') :
    Coop.Safe (Conserved creates base) p creates R (vfsGetcwd p) hold s := by
  unfold vfsGetcwd
  rw [safe_get_bind, hp]
  simp only
  cases s.pwd a with
  | none => exact hR _ hold s hC
  | some node =>
    refine safe_modify_bind.2 (safe_ask_bind (hC.refInc (v := node) rfl)
      fun ans hold₁ s₁ hp₁ hC₁ => ?_)
    rw [← update_eq_self p hold₁, hp₁] at hC₁
    exact safe_bind.2 (vopRefDec_safe hC₁ rfl fun hold₂ s₂ hC₂ => hR _ _ _ hC₂)

/-! ## Any number of processes -/

/-- A process may call anything; a child is a process that does not exist yet, or does no longer,
    and the memory for a `files_struct` is not used yet. -/
def May (creates : Prop) (s : SharedFiles P S V) (p : P) (r : Request P S) : Prop :=
  s.alive p = true ∧
    match r with
    | .open flags => flags.creat = true → creates
    | .fork child _ fresh => child ≠ p ∧ s.alive child = false ∧ s.filesp child = none ∧
        ∀ a, fresh = some a → s.used a = false
    | _ => True

theorem discard_safe {α : Type} {x : FilesCode P S V α}
    (hx : ∀ {R : Except Errno α → (P → Hold S V) → SharedFiles P S V → Prop},
      (∀ r hold' s', Conserved creates base (update hold' p {}) s' → R r hold' s') →
      Coop.Safe (Conserved creates base) p creates R x hold s)
    (hQ : ∀ r hold' s', Conserved creates base (update hold' p {}) s' → Q r hold' s') :
    Coop.Safe (Conserved creates base) p creates Q (discard x) hold s := by
  refine safe_bind.2 (hx fun r hold' s' hC' => ?_)
  cases r with
  | ok a => exact hQ _ _ _ hC'
  | error e => exact hQ _ _ _ hC'

/-- **Every call** keeps what is conserved. -/
theorem request_safe {r : Request P S} (hC : Conserved creates base (update hold p {}) s)
    (hmay : May creates s p r)
    (hQ : ∀ r hold' s', Conserved creates base (update hold' p {}) s' → Q r hold' s') :
    Coop.Safe (Conserved creates base) p creates Q (request p r) hold s := by
  obtain ⟨ha, hr⟩ := hmay
  obtain ⟨a, hp⟩ : ∃ a, s.filesp p = some a := by
    have hne := (hC.running p ha).resolve_right (by rw [update_self]; exact fun h => h rfl)
    exact Option.ne_none_iff_exists'.1 hne
  cases r with
  | «open» flags => exact discard_safe (fileOpen_safe hC hp hr) hQ
  | close fd => exact fileClose_safe hC hp hQ
  | dup fd want => exact discard_safe (fileDup_safe hC hp) hQ
  | read fd => exact discard_safe (fileMove_safe hC hp) hQ
  | write fd => exact discard_safe (fileMove_safe hC hp) hQ
  | seek fd pos whence => exact discard_safe (fileSeek_safe hC hp) hQ
  | fstat fd => exact discard_safe (fileAsk_safe hC hp) hQ
  | fsync fd => exact discard_safe (fileAsk_safe hC hp) hQ
  | getdirentry fd => exact discard_safe (fileAsk_safe hC hp) hQ
  | closeall => exact filesCloseall_safe hC hp hQ
  | chdir => exact discard_safe (vfsChdir_safe hC hp) hQ
  | getcwd => exact discard_safe (vfsGetcwd_safe hC hp) hQ
  | fork child share fresh =>
    obtain ⟨hne, -, hchild, hfresh⟩ := hr
    exact doFork_safe hC hp hne hchild hfresh hQ
  | exit mm => exact doExit_safe hC hp hQ

/-- Nothing is open yet, and every inode has the references of `base` and of working directories. -/
structure Start (base : V → ℕ) (s : SharedFiles P S V) : Prop where
  item : ∀ a, ∀ fd < filesStructNentry,
    (s.fdArray a fd).status = .none ∧ (s.fdArray a fd).openCount = 0 ∧ (s.fdArray a fd).fd = fd
  opens : ∀ n, s.openCount n = 0
  counts : ∀ n, s.refCount n = refs Finset.univ (cwdOf s) n + base n
  files : ∀ a, s.filesCount a = refs Finset.univ s.filesp a
  used : ∀ a, s.used a = true ↔ 0 < s.filesCount a
  running : ∀ p, s.alive p = true → s.filesp p ≠ none

variable (P S) in
/-- Processes that call anything, in any order; they may ask for new files only if `creates`. -/
def crew (creates : Prop) (base : V → ℕ) :
    Crew P (Request P S) (SharedFiles P S V) (Answers V) Errno where
  Init := Start base
  May _ := May creates
  code := request

omit [DecidableEq P] in
theorem Start.conserved (h : Start base s) : Conserved creates base (fun _ => {}) s := by
  have hno : ∀ {κ : Type} [DecidableEq κ] (g : Hold S V → Option κ) (x : κ), g {} = none →
      holders (P := P) g (fun _ => {}) x = 0 := fun g x hg =>
    holders_eq_zero.2 fun p e => by cases hg.symm.trans e
  have hitems : ∀ n, itemsOf s n = 0 := fun n => refs_eq_zero.2 fun z hz => by
    have hlt : z.2 < filesStructNentry := by simpa [items] using hz
    rw [held_none (h.item z.1 z.2 hlt).1]
    exact Option.some_ne_none n |>.symm
  have hcount : ∀ a, 0 ≤ s.filesCount a := fun a => by
    rw [h.files]
    omega
  refine ⟨fun a fd hlt => ?_, fun a _ fd hlt => (h.item a fd hlt).2.2, fun n => ?_,
    ⟨fun _ => 0, fun _ _ => rfl, fun n => ?_⟩, h.files, fun p a e => ?_, fun p z hz => ?_,
    fun p a i e => ?_, fun p q a i j e => ?_,
    fun a ha => ⟨?_, fun fd hlt => (h.item a fd hlt).1⟩, fun a ha => .inl ((h.used a).1 ha),
    fun p hp => .inl (h.running p hp)⟩
  · obtain ⟨h1, h2, -⟩ := h.item a fd hlt
    exact .of_none h1 ⟨h2, hno _ _ rfl, hno _ _ rfl, hno _ _ rfl⟩
  · rw [h.opens, hitems, hno _ _ rfl]
    rfl
  · rw [h.counts, hitems, hno _ _ rfl, hno _ _ rfl]
    simp
  · cases e
  · simp at hz
  · cases e
  · cases e
  · have hnot : ¬0 < s.filesCount a := fun hpos => by
      cases ha.symm.trans ((h.used a).2 hpos)
    have := hcount a
    omega

theorem crew_sound : (crew P S creates base).Sound (Conserved creates base) {} creates where
  init _ h := h.conserved
  code J p r hold s hmay hC hp _ := by
    rw [← update_eq_self p hold, hp] at hC
    exact request_safe hC hmay fun _ _ _ hC' => hC'

/-- No process holds anything: an item is free, or open and not used; the inodes are open as often
    as items say, and referred to by these items, by the working directories and by `base`; and a
    `files_struct` is in use as long as a process has it, and has no open item afterwards. -/
structure AtRest (creates : Prop) (base : V → ℕ) (s : SharedFiles P S V) : Prop where
  item : ∀ a, ∀ fd < filesStructNentry, (s.fdArray a fd).status = .none ∨
    (s.fdArray a fd).status = .opened ∧ (s.fdArray a fd).openCount = 1 ∧
      (s.fdArray a fd).node ≠ none
  opens : ∀ n, s.openCount n = itemsOf s n
  counts : ∃ leak : V → ℕ, (¬creates → ∀ n, leak n = 0) ∧ ∀ n,
    s.refCount n = itemsOf s n + refs Finset.univ (cwdOf s) n + base n + leak n
  files : ∀ a, s.filesCount a = refs Finset.univ s.filesp a
  used : ∀ a, s.used a = true ↔ 0 < s.filesCount a
  closed : ∀ a, s.filesCount a = 0 →
    ∀ fd < filesStructNentry, (s.fdArray a fd).status = .none

omit [DecidableEq P] in
theorem Conserved.atRest (hC : Conserved creates base hold s) (hh : ∀ p, hold p = {}) :
    AtRest creates base s := by
  have hno : ∀ {κ : Type} [DecidableEq κ] (g : Hold S V → Option κ) (x : κ), g {} = none →
      holders g hold x = 0 := fun g x hg => holders_eq_zero.2 fun p e => by
    rw [hh p] at e
    cases hg.symm.trans e
  have hused : ∀ a, s.used a = true → 0 < s.filesCount a := fun a ha =>
    (hC.kept a ha).resolve_right fun ⟨p, i, hp⟩ => by
      rw [hh p] at hp
      cases hp
  have hunused : ∀ a, s.used a ≠ true → s.filesCount a = 0 ∧
      ∀ fd < filesStructNentry, (s.fdArray a fd).status = .none := fun a ha =>
    hC.unused a (Bool.eq_false_iff.2 ha)
  refine ⟨fun a fd hlt => ?_, fun n => ?_, ?_, hC.files, fun a => ⟨hused a, fun hpos => ?_⟩,
    fun a h0 => (hunused a fun ha => ?_).2⟩
  · have hs := hC.slot a fd hlt
    rw [hno _ _ rfl, hno _ _ rfl, hno _ _ rfl] at hs
    cases hst : (s.fdArray a fd).status with
    | none => exact .inl rfl
    | init => have := hs.init hst; omega
    | opened =>
      obtain ⟨h1, h2, -⟩ := hs.opened hst
      exact .inr ⟨rfl, h2, h1⟩
    | closed => have := hs.closed hst; omega
  · rw [hC.opens, hno _ _ rfl]
    simp
  · obtain ⟨leak, hleak, hcount⟩ := hC.counts
    refine ⟨leak, hleak, fun n => ?_⟩
    rw [hcount, hno _ _ rfl, hno _ _ rfl]
    simp
  · by_contra ha
    rw [(hunused a ha).1] at hpos
    exact lt_irrefl _ hpos
  · have := hused a ha
    omega

/-- **Descriptors are conserved** in whatever order the processes take their steps: there is what
    each process holds while it waits, nothing if it does not, such that every item and every count
    is as it should be.  When nobody is in a call, no item is in use. -/
theorem descriptors_conserved {t : Team P (SharedFiles P S V) (Answers V) Errno}
    (h : (crew P S creates base).machine.Reach t) :
    ∃ hold, Conserved creates base hold t.mem ∧ (∀ p, t.Idle p → hold p = {}) ∧
      ((∀ p, t.Idle p) → AtRest creates base t.mem) := by
  obtain ⟨hold, hk⟩ := Crew.kept crew_sound h
  exact ⟨hold, hk.inv, fun p => hk.holds_idle, fun hall =>
    hk.inv.atRest fun p => hk.holds_idle (hall p)⟩

instance {s : SharedFiles P S V} {r : Request P S} [Decidable creates] :
    Decidable (May creates s p r) := by
  unfold May
  cases r <;> infer_instance

instance [Decidable creates] {t : Team P (SharedFiles P S V) (Answers V) Errno}
    {i : Turn P (Request P S) (Answers V)} :
    Decidable ((crew P S creates base).machine.Legal t i) :=
  match i with
  | .call p r => inferInstanceAs (Decidable ((t.code p).isDone = true ∧ May creates t.mem p r))
  | .answer p _ => inferInstanceAs (Decidable ((t.code p).isWait = true))

/-- One process, with one `files_struct`. -/
def boot : SharedFiles (Fin 2) (Fin 2) Unit where
  fdArray _ fd := ⟨.none, false, false, fd, 0, none, 0⟩
  pwd _ := none
  filesCount a := if a = 0 then 1 else 0
  used a := a = 0
  filesp p := if p = 0 then some 0 else none
  alive p := p = 0
  refCount _ := 0
  openCount _ := 0

theorem start_boot : Start (fun _ => 0) boot where
  item _ _ _ := ⟨rfl, rfl, rfl⟩
  opens _ := rfl
  counts := by decide
  files := by decide
  used := by decide
  running := by decide

def found : Answers Unit where
  lookup := .ok ()
  parent := .ok ()
  create := .ok ()
  opened := .ok ()
  truncate := .ok ()
  size := .ok 0
  moved := ⟨1, .ok ()⟩
  ret := .ok ()
  isDir := .ok true

/-- The process opens a file and forks, the child reads, and the parent closes the file. -/
def closedInUse : List (Turn (Fin 2) (Request (Fin 2) (Fin 2)) (Answers Unit)) :=
  [.call 0 (.open FileTable.oRdonly), .answer 0 found, .call 0 (.fork 1 true none),
    .call 1 (.read 0), .call 0 (.close 0)]

theorem reach_closedInUse : ∃ t, (crew (Fin 2) (Fin 2) False fun _ : Unit => 0).machine.Reach t ∧
    (t.mem.fdArray 0 0).status = .closed ∧ (t.code 1).isWait = true := by
  have hrun : (((crew (Fin 2) (Fin 2) False fun _ : Unit => 0).machine.run
      ⟨fun _ => pure (), boot⟩ closedInUse).any fun t =>
        (t.mem.fdArray 0 0).status = .closed ∧ (t.code 1).isWait = true) = true := by
    decide +kernel
  obtain ⟨t, ht, hP⟩ := (Option.any_eq_true ..).1 hrun
  rw [decide_eq_true_eq] at hP
  have hinit : (crew (Fin 2) (Fin 2) False fun _ : Unit => 0).machine.Init
      ⟨fun _ => pure (), boot⟩ := ⟨start_boot, fun _ => rfl⟩
  exact ⟨t, (Machine.Reach.init hinit).run ht, hP⟩

/-- Meanwhile the child holds the item. -/
theorem descriptors_conserved_closedInUse :
    ∃ (t : Team (Fin 2) (SharedFiles (Fin 2) (Fin 2) Unit) (Answers Unit) Errno)
      (hold : Fin 2 → Hold (Fin 2) Unit),
      (t.mem.fdArray 0 0).status = .closed ∧ Conserved False (fun _ => 0) hold t.mem := by
  obtain ⟨t, ht, hst, -⟩ := reach_closedInUse
  obtain ⟨hold, hC, -⟩ := descriptors_conserved ht
  exact ⟨t, hold, hst, hC⟩

end Ucore.SharedFiles
