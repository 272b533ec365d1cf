/-
  `get_device` and `vfs_lookup`: what they find, and the references they take.

  * `startNode`, `target`: what the forms of a path mean;
  * `getDevice_form`: the path is read, and what is left of it is in the buffer;
  * `getDevice_spec`, `vfsLookup_spec`: one reference more, or as many as before;
  * `lookup_resolves_iff`: when a path is resolved.
-/
import Ucore.Fs.VfsNodes
import Ucore.Fs.Listing

set_option linter.unusedSectionVars false

namespace Ucore

namespace Vfs

variable {F D : Type} [DecidableEq F] [DecidableEq D]

/-! ## What a path means -/

/-- The node a lookup starts at. -/
def startNode (s : Vfs F D) : Start → Except Errno (Vnode F D)
  | .device name =>
    match s.vdevList.find? fun vdev => name = vdev.devname with
    | none => .error .noDev
    | some vdev =>
      match vdev.fs with
      | some f => .ok (.file f sfsBlknRoot)
      | none => if vdev.mountable = false then .ok (.device vdev.devnode) else .error .naDev
  | .boot => orNoEnt s.bootfs
  | .root =>
    match s.pwd with
    | some (.file f _) => .ok (.file f sfsBlknRoot)
    | _ => .error .noEnt
  | .cwd => orNoEnt s.pwd

/-- The file system whose root is loaded. -/
def rootOf (s : Vfs F D) : Start → Option F
  | .device name => (s.vdevList.find? fun vdev => name = vdev.devname).bind VfsDev.fs
  | .root =>
    match s.pwd with
    | some (.file f _) => some f
    | _ => none
  | _ => none

/-- The node with a name, from node `n` on. -/
def target (s : Vfs F D) (rest : List UInt8) (n : Vnode F D) : Except Errno (Vnode F D) :=
  if rest = [] then .ok n
  else
    match n with
    | .file f i => orNoEnt (((s.fs f).slotOf i rest).map fun k => .file f ((s.fs f).entry i k).ino)
    | .device _ => .error .noEnt

/-- **The path is resolved**: `get_device` finds the start, and `vfs_lookup` what the rest names
    there, or the error of a request; one reference is added, to the node returned, and none if
    there is none. -/
structure Resolves (dev : F → Device) (s : Vfs F D) (start : Start) (rest : List UInt8) : Prop where
  device : ∃ r t, getDevice dev s = some (r, t) ∧ t.opens = s.opens ∧
    (∀ n, s.startNode start = .ok n → ∃ k, r = .ok (k, n) ∧ cstr t.path k = rest ∧
      t.refs = Function.update s.refs n (s.refs n + 1)) ∧
    ∀ e, s.startNode start = .error e → r = .error e ∧ t.refs = s.refs
  lookup : ∃ r t, vfsLookup dev s = some (r, t) ∧ t.opens = s.opens ∧
    (r = (s.startNode start).bind (s.target rest) ∨
      ∃ f i e, s.startNode start = .ok (.file f i) ∧ (dev f).Reports e ∧ r = .error e) ∧
    (∀ n, r = .ok n → t.refs = Function.update s.refs n (s.refs n + 1)) ∧
    ∀ e, r = .error e → t.refs = s.refs

/-- The root can be loaded, the name is not too long, and the start has not too many references. -/
structure Resolvable (dev : F → Device) (s : Vfs F D) (start : Start) (rest : List UInt8) :
    Prop where
  loads : ∀ f, s.rootOf start = some f → (s.fs f).Loads (dev f) sfsBlknRoot
  name : ∀ f i, s.startNode start = .ok (.file f i) → rest.length ≤ 255
  refs : ∀ n, s.startNode start = .ok n → rest ≠ [] → s.refs n + 1 < maxInodeCount

/-! ## The start -/

/-- The buffer, which is cut behind the name of a device. -/
def cut (path : List UInt8) : Start → List UInt8
  | .device name => path.set name.length 0
  | _ => path

/-- The part of `get_device` that takes the start. -/
def startCode (dev : F → Device) : Start → V F D (Vnode F D)
  | .device name => vfsGetRoot dev name
  | .boot => vfsGetBootfs
  | .root => curdirRoot dev
  | .cwd => vfsGetCurdir

variable {dev : F → Device} {I : F → Finset ℕ} {E : F → Set ℕ} {s t u : Vfs F D}
  {n m : Vnode F D} {f : F} {i : ℕ} {start : Start} {rest name : List UInt8} {e : Errno}

/-- **How a path is read.** What is left of it is at `*subpath`. -/
theorem getDevice_form (dev : F → Device) (hp : Interprets (cstr s.path 0) start rest) :
    ∃ k, getDevice dev s = (do
        let node ← startCode dev start
        pure (k, node) : V F D _) { s with path := cut s.path start } ∧
      cstr (cut s.path start) k = rest := by
  obtain ⟨l, hl⟩ : ∃ l, cstr s.path 0 = l := ⟨_, rfl⟩
  have hstart : getDevice dev s = _ := Code.bind_ok (rfl : (Code.get : V F D _) s = _)
  rw [hl] at hp
  rw [hstart]
  cases hp with
  | @device name rest hne hc hs =>
    have hn : ∀ c ∈ name, ¬Special c := fun c hm h => h.elim (fun h => hc (h ▸ hm))
      fun h => hs (h ▸ hm)
    have hpos : 0 < name.length := List.length_pos_iff.2 hne
    rw [scanLoop_colon hl hn]
    refine ⟨skipSlashes (s.path.set name.length 0) name.length, ?_, ?_⟩
    · dsimp only
      rw [if_neg (by omega), if_pos (by exact_mod_cast hpos), Int.toNat_natCast]
      refine (Code.bind_ok rfl).trans ?_
      rw [cstr_set hl]
      rfl
    · rw [cut, cstr_skipSlashes, cstr_set_drop hl]
  | @boot rest =>
    have hrest : cstr s.path (([] : List UInt8).length + 1) = rest := cstr_drop_succ hl
    have hscan : scanLoop s.path 0 = ((([] : List UInt8).length : ℤ), -1) :=
      scanLoop_slash hl fun c hm => by cases hm
    rw [hscan]
    refine ⟨skipSlashes s.path 0, ?_, ?_⟩
    · dsimp only
      rw [if_neg (by decide), if_neg (by decide), if_pos (head?_of_cstr hl)]
      rfl
    · change cstr s.path (skipSlashes s.path 0) = _
      rw [cstr_skipSlashes]
      exact congrArg dropSlashes hrest
  | @root rest =>
    have hhead : s.path.head? = some chColon := head?_of_cstr hl
    have hrest : cstr s.path (([] : List UInt8).length + 1) = rest := cstr_drop_succ hl
    have hscan : scanLoop s.path 0 = (-1, (([] : List UInt8).length : ℤ)) :=
      scanLoop_colon hl fun c hm => by cases hm
    rw [hscan]
    refine ⟨skipSlashes s.path 0, ?_, ?_⟩
    · dsimp only
      rw [if_neg (by decide), if_neg (by decide), if_neg (by rw [hhead]; decide),
        Code.assert_bind hhead]
      rfl
    · change cstr s.path (skipSlashes s.path 0) = _
      rw [cstr_skipSlashes]
      exact congrArg dropSlashes hrest
  | cwd hs hc =>
    have hcwd : Interprets (cstr s.path 0) .cwd rest := by
      rw [hl]
      exact .cwd hs hc
    obtain ⟨h1, h2, -⟩ := scanLoop_cwd hcwd
    refine ⟨0, ?_, hl⟩
    rw [← Prod.mk.eta (p := scanLoop s.path 0)]
    dsimp only
    rw [if_pos ⟨h1, h2⟩]
    rfl

/-- A start is a directory, or a device. -/
theorem startNode_dir (h : s.Ok I E) (hs : s.startNode start = .ok (.file f i)) :
    i ∈ I f ∧ ((s.fs f).dinOf i).type = sfsTypeDir := by
  have hroot : sfsBlknRoot ∈ I f ∧ ((s.fs f).dinOf sfsBlknRoot).type = sfsTypeDir :=
    ⟨(h.named f).root, (h.named f).root_type⟩
  cases start with
  | device name =>
    rw [startNode] at hs
    split at hs
    · cases hs
    · split at hs
      · cases hs
        exact hroot
      · split at hs
        · cases hs
        · cases hs
  | boot =>
    cases hb : s.bootfs with
    | none =>
      rw [startNode, hb] at hs
      cases hs
    | some n =>
      rw [startNode, hb] at hs
      obtain ⟨g, rfl, -⟩ := h.bootfs n hb
      cases hs
      exact hroot
  | root =>
    rw [startNode] at hs
    split at hs
    · cases hs
      exact hroot
    · cases hs
  | cwd =>
    cases hp : s.pwd with
    | none =>
      rw [startNode, hp] at hs
      cases hs
    | some n =>
      rw [startNode, hp] at hs
      obtain ⟨g, j, rfl, hc, ht⟩ := h.pwd n hp
      cases hs
      exact ⟨(h.acct f).cached i hc, (Acct.dinOf_of_cached hc).symm ▸ ht⟩

/-- The check of `vop_reclaim` passes. -/
theorem Ok.check (h : s.Ok I E) (ho : t.opens n = s.opens n) (hr : s.refs n < t.refs n) :
    t.refs n = 1 → t.opens n = 0 := by
  have hn := h.opens n
  intro h1
  omega

/-! ## The start is dropped -/

section
variable {p : List UInt8} {u₁ u₂ : Sfs} {j : ℕ}

theorem refs_lt (hg : Gained (I f) (E f) (s.fs f) i u₁) (hle : u₁.refs i ≤ u₂.refs i) :
    s.refs (.file f i) <
      Vfs.refs { s with fs := Function.update s.fs f u₂, path := p } (.file f i) := by
  have h := hg.refs (j := i)
  rw [if_pos rfl] at h
  rw [refs_update, if_pos rfl, Vfs.refs]
  omega

/-- For a node that has been taken since. -/
theorem drop_gained (dev : F → Device) (p : List UInt8) (h : s.Ok I E)
    (hd : ((s.fs f).dinOf i).type = sfsTypeDir) (hg : Gained (I f) (E f) (s.fs f) i u₁)
    (hg' : Gained (I f) (E f) u₁ j u₂) :
    ∃ t, vopRefDec dev (.file f i) { s with fs := Function.update s.fs f u₂, path := p } =
      some (.ok (), t) ∧ Took I E s t (.file f j) ∧ t.path = p := by
  have hpos := (h.named f).held i hd
  have hle : u₁.refs i ≤ u₂.refs i := by
    rw [hg'.refs]
    split
    · rename_i hij
      rw [hij]
      omega
    · exact Int.le_refl _
  obtain ⟨v, hv, hg₂⟩ : ∃ v, Ucore.vopRefDec (dev f) i u₂ = some (.ok (), v) ∧ _ :=
    (hg.held hpos).next (dev f) hpos hg'
  rw [← Function.update_self f u₂ s.fs] at hv
  refine ⟨_, vopRefDec_file (h.check rfl (refs_lt hg hle)) hv, ⟨v, hg₂, ?_⟩, rfl⟩
  dsimp only
  rw [Function.update_idem]

/-- Nothing has been taken since. -/
theorem drop_kept (dev : F → Device) (p : List UInt8) (h : s.Ok I E)
    (hd : ((s.fs f).dinOf i).type = sfsTypeDir) (hg : Gained (I f) (E f) (s.fs f) i u₁)
    (ha : Acct (I f) (E f) u₂) (hm : u₁.Moves u₂ u₁.inode) :
    ∃ t, vopRefDec dev (.file f i) { s with fs := Function.update s.fs f u₂, path := p } =
      some (.ok (), t) ∧ Kept I E s t ∧ t.path = p := by
  have hpos := (h.named f).held i hd
  have hle : u₁.refs i ≤ u₂.refs i := by
    rw [hm.refs]
    exact Int.le_refl _
  have hh : Held (I f) (E f) (s.fs f) i u₂ :=
    ⟨ha, by
      have hback := (hg.held hpos).moves.inode
      rw [← hback]
      exact (hg.held hpos).moves.trans hm⟩
  obtain ⟨v, hv, hav, hmv⟩ : ∃ v, Ucore.vopRefDec (dev f) i u₂ = some (.ok (), v) ∧ _ :=
    hh.drop (dev f) hpos
  rw [← Function.update_self f u₂ s.fs] at hv
  refine ⟨_, vopRefDec_file (h.check rfl (refs_lt hg hle)) hv, ⟨?_, fun g => ?_, fun g => ?_⟩, rfl⟩
  · rfl
  · by_cases hgf : g = f
    · subst hgf
      simpa using hav
    · simpa [hgf] using h.acct g
  · by_cases hgf : g = f
    · subst hgf
      simpa using hmv
    · simpa [hgf] using Sfs.Moves.refl (s.fs g)

end

/-- `sfs_get_root` -/
theorem fsopGetRoot_run (h : s.Ok I E) (hl : (s.fs f).Loads (dev f) sfsBlknRoot) :
    ∃ t, fsopGetRoot dev f s = some (.ok (.file f sfsBlknRoot), t) ∧
      Took I E s t (.file f sfsBlknRoot) ∧ t.path = s.path := by
  obtain ⟨u, hu, hg⟩ := loadInode_loads (h.acct f) (h.named f).root
    ((h.named f).links _ (h.named f).root) hl
  exact ⟨_, (Code.attempt_bind (onFs_run hu)).trans rfl, ⟨u, hg, rfl⟩, rfl⟩

theorem fsopGetRoot_panics {u : Sfs} {e : Errno}
    (hu : loadInode (dev f) sfsBlknRoot (s.fs f) = some (.error e, u)) :
    fsopGetRoot dev f s = none := (Code.attempt_bind (onFs_run hu)).trans rfl

/-- A node that is held by the process, or by the kernel. -/
theorem takeNode_run {o : Option (Vnode F D)} (h : s.Ok I E) (ho : o = s.bootfs ∨ o = s.pwd)
    (hn : o = some n) : ∃ t, takeNode o s = some (.ok n, t) ∧ Took I E s t n ∧ t.path = s.path := by
  obtain ⟨f, i, rfl, hc, ht⟩ : ∃ f i, n = .file f i ∧ (s.fs f).cached i = true ∧
      ((s.fs f).din i).type = sfsTypeDir := by
    rcases ho with rfl | rfl
    · obtain ⟨f, rfl, hc⟩ := h.bootfs n hn
      exact ⟨f, _, rfl, hc, (Acct.dinOf_of_cached hc) ▸ (h.named f).root_type⟩
    · exact h.pwd n hn
  obtain ⟨t, hrun, htook, hp⟩ := vopRefInc_file h hc ht
  rw [hn]
  exact ⟨t, (Code.bind_ok hrun).trans rfl, htook, hp⟩

/-- The working directory is taken; no request is made. -/
theorem vfsGetCurdir_run (dev : F → Device) (h : s.Ok I E) (hp : s.pwd = some (.file f i)) :
    ∃ u, vfsGetCurdir s = some (.ok (.file f i), { s with fs := Function.update s.fs f u }) ∧
      ((s.fs f).dinOf i).type = sfsTypeDir ∧ Held (I f) (E f) (s.fs f) i u ∧
      (u.Loads (dev f) sfsBlknRoot ↔ (s.fs f).Loads (dev f) sfsBlknRoot) := by
  obtain ⟨g, j, he, hc, ht⟩ := h.pwd _ hp
  cases he
  obtain ⟨u, hu, ha, hm⟩ := vopRefInc_run (h.acct f) hc
  refine ⟨u, ?_, by rwa [Acct.dinOf_of_cached hc], ⟨ha, hm⟩, ?_⟩
  · exact (congrArg (fun o => takeNode o s) hp).trans ((Code.bind_ok (onFs_run hu)).trans rfl)
  · have he : some (Except.ok (), (s.fs f).setSin i fun sin =>
        { sin with refCount := sin.refCount + 1 }) = some (Except.ok (), u) := hu
    cases he
    exact Iff.rfl

/-- The root of the file system of the working directory. -/
theorem curdirRoot_run (h : s.Ok I E) (hp : s.pwd = some (.file f i))
    (hl : (s.fs f).Loads (dev f) sfsBlknRoot) :
    ∃ t, curdirRoot dev s = some (.ok (.file f sfsBlknRoot), t) ∧
      Took I E s t (.file f sfsBlknRoot) ∧ t.path = s.path := by
  obtain ⟨u₁, hcur, hd, hh, hl₁⟩ := vfsGetCurdir_run dev h hp
  have hg : Gained (I f) (E f) (s.fs f) i u₁ :=
    ⟨hh.acct, by rw [taken_eq_incr ((h.named f).held i hd)]; exact hh.moves⟩
  have hroot := (h.named f).root
  obtain ⟨u₂, hu₂, hg₂⟩ := loadInode_loads hh.acct hroot
    (by rw [hh.dinOf]; exact (h.named f).links _ hroot) (hl₁.2 hl)
  obtain ⟨t, hdec, htook, hpath⟩ := drop_gained dev s.path h hd hg hg₂
  have hload : loadInode (dev f) sfsBlknRoot (Function.update s.fs f u₁ f) = some (.ok (), u₂) := by
    rwa [Function.update_self]
  have hget : fsopGetRoot dev f { s with fs := Function.update s.fs f u₁ } =
      some (.ok (.file f sfsBlknRoot), { s with fs := Function.update s.fs f u₂ }) := by
    refine (Code.attempt_bind (onFs_run (s := { s with fs := Function.update s.fs f u₁ })
      hload)).trans ?_
    dsimp only
    rw [Function.update_idem]
    rfl
  refine ⟨t, ?_, htook, hpath⟩
  rw [curdirRoot, Code.bind_ok hcur]
  exact (Code.bind_ok hget).trans ((Code.bind_ok hdec).trans rfl)

/-- **The start is taken.** -/
theorem startCode_ok (h : s.Ok I E)
    (hl : ∀ f, s.rootOf start = some f → (s.fs f).Loads (dev f) sfsBlknRoot)
    (hs : s.startNode start = .ok n) :
    ∃ t, startCode dev start s = some (.ok n, t) ∧ Took I E s t n ∧ t.path = s.path := by
  cases start with
  | device name =>
    have hrun : startCode dev (.device name) s = vfsGetRoot dev name s := rfl
    rw [hrun, vfsGetRoot, Code.bind_ok (rfl : (Code.get : V F D _) s = _)]
    cases hv : s.vdevList.find? fun vdev => decide (name = vdev.devname) with
    | none =>
      rw [startNode, hv] at hs
      cases hs
    | some vdev =>
      rw [startNode, hv] at hs
      cases hf : vdev.fs with
      | some f =>
        simp only [hf] at hs ⊢
        cases hs
        exact fsopGetRoot_run h (hl f (by rw [rootOf, hv]; exact hf))
      | none =>
        simp only [hf] at hs ⊢
        split at hs
        · rename_i hm
          cases hs
          rw [if_pos hm]
          exact ⟨_, rfl, rfl, rfl⟩
        · cases hs
  | boot =>
    cases hb : s.bootfs with
    | none =>
      rw [startNode, hb] at hs
      cases hs
    | some m =>
      rw [startNode, hb] at hs
      cases hs
      exact takeNode_run h (.inl rfl) hb
  | root =>
    rw [startNode] at hs
    split at hs
    · rename_i f i hp
      cases hs
      exact curdirRoot_run h hp (hl f (by rw [rootOf, hp]))
    · cases hs
  | cwd =>
    cases hp : s.pwd with
    | none =>
      rw [startNode, hp] at hs
      cases hs
    | some m =>
      rw [startNode, hp] at hs
      cases hs
      exact takeNode_run h (.inr rfl) hp

/-- There is no start. -/
theorem startCode_error (dev : F → Device) (h : s.Ok I E) (hs : s.startNode start = .error e) :
    startCode dev start s = some (.error e, s) := by
  have hnone : ∀ {o : Option (Vnode F D)}, orNoEnt o = .error e →
      takeNode o s = some (.error e, s) := fun {o} ho => by
    cases o with
    | none =>
      cases ho
      rfl
    | some n => cases ho
  cases start with
  | device name =>
    have hrun : startCode dev (.device name) s = vfsGetRoot dev name s := rfl
    rw [hrun, vfsGetRoot, Code.bind_ok (rfl : (Code.get : V F D _) s = _)]
    cases hv : s.vdevList.find? fun vdev => decide (name = vdev.devname) with
    | none =>
      rw [startNode, hv] at hs
      cases hs
      rfl
    | some vdev =>
      rw [startNode, hv] at hs
      cases hf : vdev.fs with
      | some f =>
        simp only [hf] at hs
        cases hs
      | none =>
        simp only [hf] at hs ⊢
        split at hs
        · cases hs
        · rename_i hm
          cases hs
          rw [if_neg hm]
          rfl
  | boot => exact hnone hs
  | root =>
    rw [startNode] at hs
    split at hs
    · cases hs
    · rename_i hp
      cases hs
      cases hpwd : s.pwd with
      | none => exact Code.bind_error ((congrArg (fun o => takeNode o s) hpwd).trans rfl)
      | some n =>
        obtain ⟨f, i, rfl, -⟩ := h.pwd n hpwd
        exact absurd hpwd (hp f i)
  | cwd => exact hnone hs

/-- The root cannot be loaded. -/
theorem startCode_panics (h : s.Ok I E) (hr : s.rootOf start = some f)
    (hl : ¬(s.fs f).Loads (dev f) sfsBlknRoot) : startCode dev start s = none := by
  have hroot := (h.named f).root
  cases start with
  | device name =>
    rw [rootOf] at hr
    obtain ⟨vdev, hv, hf⟩ := Option.bind_eq_some_iff.1 hr
    obtain ⟨e, u, hu⟩ := loadInode_fails (h.acct f) hroot ((h.named f).links _ hroot) hl
    have hrun : startCode dev (.device name) s = vfsGetRoot dev name s := rfl
    rw [hrun, vfsGetRoot, Code.bind_ok (rfl : (Code.get : V F D _) s = _), hv]
    simp only [hf]
    exact fsopGetRoot_panics hu
  | boot => cases hr
  | root =>
    rw [rootOf] at hr
    split at hr
    · rename_i g i hp
      cases hr
      obtain ⟨u₁, hcur, -, hh, hl₁⟩ := vfsGetCurdir_run dev h hp
      obtain ⟨e, u₂, hu₂⟩ := loadInode_fails hh.acct hroot
        (by rw [hh.dinOf]; exact (h.named f).links _ hroot) (mt hl₁.1 hl)
      have hload : loadInode (dev f) sfsBlknRoot (Function.update s.fs f u₁ f) =
          some (.error e, u₂) := by
        rwa [Function.update_self]
      refine (Code.bind_ok hcur).trans (Code.bind_none ?_)
      exact fsopGetRoot_panics (s := { s with fs := Function.update s.fs f u₁ }) hload
    · cases hr
  | cwd => cases hr

/-! ## `get_device` -/

theorem startNode_path (s : Vfs F D) (p : List UInt8) (start : Start) :
    startNode { s with path := p } start = s.startNode start := by
  cases start <;> rfl

theorem rootOf_path (s : Vfs F D) (p : List UInt8) (start : Start) :
    rootOf { s with path := p } start = s.rootOf start := by
  cases start <;> rfl

theorem Ok.path (h : s.Ok I E) (p : List UInt8) : Ok I E { s with path := p } :=
  ⟨h.acct, h.named, h.bootfs, h.pwd, h.devices, h.opens⟩

theorem took_path {p : List UInt8} (h : Took I E { s with path := p } t n) : Took I E s t n := by
  cases n with
  | file f i => exact h
  | device d => exact h

theorem getDevice_ok (h : s.Ok I E) (hp : Interprets (cstr s.path 0) start rest)
    (hl : ∀ f, s.rootOf start = some f → (s.fs f).Loads (dev f) sfsBlknRoot)
    (hs : s.startNode start = .ok n) :
    ∃ k t, getDevice dev s = some (.ok (k, n), t) ∧ cstr t.path k = rest ∧ Took I E s t n ∧
      t.path = cut s.path start := by
  obtain ⟨k, hrun, hk⟩ := getDevice_form dev hp
  rw [← rootOf_path s (cut s.path start)] at hl
  rw [← startNode_path s (cut s.path start)] at hs
  obtain ⟨t, hcode, htook, hpath⟩ := startCode_ok (h.path _) hl hs
  exact ⟨k, t, hrun.trans ((Code.bind_ok hcode).trans rfl), by rwa [hpath], took_path htook, hpath⟩

theorem getDevice_error (dev : F → Device) (h : s.Ok I E)
    (hp : Interprets (cstr s.path 0) start rest) (hs : s.startNode start = .error e) :
    getDevice dev s = some (.error e, { s with path := cut s.path start }) := by
  obtain ⟨k, hrun, -⟩ := getDevice_form dev hp
  rw [← startNode_path s (cut s.path start)] at hs
  exact hrun.trans (Code.bind_error (startCode_error dev (h.path _) hs))

theorem getDevice_panics (h : s.Ok I E) (hp : Interprets (cstr s.path 0) start rest)
    (hr : s.rootOf start = some f) (hl : ¬(s.fs f).Loads (dev f) sfsBlknRoot) :
    getDevice dev s = none := by
  obtain ⟨k, hrun, -⟩ := getDevice_form dev hp
  rw [← rootOf_path s (cut s.path start)] at hr
  exact hrun.trans (Code.bind_none (startCode_panics (h.path _) hr hl))

/-! ## `vop_lookup` -/

theorem Took.pos (h : Took I E s t n) : s.refs n + 1 = t.refs n := by
  rw [h.refs, Function.update_self]

theorem Took.gained (h : Took I E s t (.file f i)) :
    Gained (I f) (E f) (s.fs f) i (t.fs f) ∧
      t = { s with fs := Function.update s.fs f (t.fs f), path := t.path } := by
  obtain ⟨u, hg, ht⟩ := h
  have hfs : t.fs f = u := by
    rw [ht]
    exact Function.update_self ..
  rw [hfs]
  exact ⟨hg, ht⟩

theorem Took.check (h : s.Ok I E) (ht : Took I E s t n) (hlt : s.refs n + 1 < maxInodeCount) :
    inodeCheck n t = some (.ok (), t) := by
  have hopens := h.opens n
  refine inodeCheck_run ?_ (by rw [← ht.pos]; exact hlt)
  rw [ht.opens, ← ht.pos]
  exact ⟨hopens.1, by omega⟩

theorem vopLookup_run {r : Except Errno ℕ} {u : Sfs} (ht : ((t.fs f).din i).type = sfsTypeDir)
    (hc : inodeCheck (.file f i) t = some (.ok (), t))
    (hrun : sfsLookup (dev f) i rest (t.fs f) = some (r, u)) :
    vopLookup dev (.file f i) rest t =
      some (r.map (.file f), { t with fs := Function.update t.fs f u }) := by
  unfold vopLookup
  dsimp only
  rw [Code.bind_ok (rfl : (Code.get : V F D _) t = _), Code.assert_bind ht, Code.bind_ok hc]
  cases r with
  | ok j => exact (Code.bind_ok (onFs_run hrun)).trans rfl
  | error e => exact Code.bind_error (onFs_run hrun)

/-- **`vop_lookup` in a directory that has been taken**, and the directory is dropped. -/
theorem vopLookup_file (dev : F → Device) (h : s.Ok I E)
    (hd : i ∈ I f ∧ ((s.fs f).dinOf i).type = sfsTypeDir) (ht : Took I E s t (.file f i))
    (hlt : s.refs (.file f i) + 1 < maxInodeCount) (hlen : rest.length ≤ 255)
    (hrest : rest ≠ [] ∧ rest.head? ≠ some chSlash) :
    ∃ r u w, vopLookup dev (.file f i) rest t = some (r, u) ∧
      vopRefDec dev (.file f i) u = some (.ok (), w) ∧
      ((∃ m, s.target rest (.file f i) = .ok m ∧ r = .ok m ∧ Took I E s w m) ∨
        (∃ e, r = .error e ∧ (s.target rest (.file f i) = .error .noEnt ∧ e = .noEnt ∨
          (dev f).Reports e)) ∧ Kept I E s w) ∧ w.path = t.path := by
  obtain ⟨hg, hte⟩ := ht.gained
  have hpos := (h.named f).held i hd.2
  have hh := hg.held hpos
  have hdir := hh.directory hd.2 ((h.named f).cap i hd.1 hd.2) ((h.named f).whole i hd.1 hd.2)
  have htarget : s.target rest (.file f i) = orNoEnt
      (((s.fs f).slotOf i rest).map fun k => .file f ((s.fs f).entry i k).ino) := if_neg hrest.1
  obtain ⟨r, u₂, hrun, hout⟩ := sfsLookup_spec (dev f) hg.acct (hh.named (h.named f) hpos)
    hdir.cached hdir.type hlen hrest
  have hvop : vopLookup dev (.file f i) rest t = some (r.map (.file f), _) :=
    vopLookup_run hdir.type (ht.check h hlt) hrun
  have hput : { t with fs := Function.update t.fs f u₂ } =
      { s with fs := Function.update s.fs f u₂, path := t.path } := by
    rw [hte]
    dsimp only
    rw [Function.update_idem]
  rw [hput] at hvop
  rcases hout with ⟨k, hslot, rfl, hg'⟩ | ⟨⟨e, rfl, hwhy⟩, ha, hm⟩
  · rw [hh.slotOf] at hslot
    rw [hh.entry] at hg' hvop
    obtain ⟨w, hdec, htook, hpath⟩ := drop_gained dev t.path h hd.2 hg hg'
    refine ⟨_, _, w, hvop, hdec, .inl ⟨_, ?_, rfl, htook⟩, hpath⟩
    rw [htarget, hslot]
    rfl
  · obtain ⟨w, hdec, hkept, hpath⟩ := drop_kept dev t.path h hd.2 hg ha hm
    refine ⟨_, _, w, hvop, hdec, .inr ⟨⟨e, rfl, ?_⟩, hkept⟩, hpath⟩
    rcases hwhy with ⟨hslot, rfl⟩ | hf
    · rw [hh.slotOf] at hslot
      exact .inl ⟨by rw [htarget, hslot]; rfl, rfl⟩
    · exact .inr hf

/-- **`vop_lookup` of a device** finds nothing. -/
theorem vopLookup_device (dev : F → Device) {d : D} (h : s.Ok I E)
    (ht : Took I E s t (.device d)) (hlt : s.refs (.device d) + 1 < maxInodeCount)
    (hrest : rest ≠ []) :
    vopLookup dev (.device d) rest t = some (.error .noEnt, t) ∧
      ∃ w, vopRefDec dev (.device d) t = some (.ok (), w) ∧ Kept I E s w ∧ w.path = t.path := by
  have hpos := h.devices d
  have hrefs : t.devRefs d = s.devRefs d + 1 := ht.pos.symm
  have hback : { t with devRefs := Function.update t.devRefs d (t.devRefs d - 1) } =
      { s with path := t.path } := by
    rw [Took] at ht
    rw [ht]
    simp
  refine ⟨?_, { s with path := t.path }, ?_, ⟨rfl, h.acct, fun g => .refl _⟩, rfl⟩
  · unfold vopLookup
    dsimp only
    rw [Code.bind_ok (ht.check h hlt), if_pos hrest]
    rfl
  · rw [vopRefDec, Code.bind_ok (rfl : (Code.get : V F D _) t = _), Code.assert_bind (by omega),
      ← hback]
    refine (Code.bind_ok rfl).trans ?_
    rw [if_neg (by omega)]
    rfl

/-! ## `vfs_lookup` -/

section
variable {k : ℕ}

theorem vfsLookup_start (hdev : getDevice dev s = some (.ok (k, n), t))
    (hk : cstr t.path k = rest) :
    vfsLookup dev s = (if rest ≠ [] then do
      match ← Code.attempt (vopLookup dev n rest) with
      | .error ret => do
        vopRefDec dev n
        Code.throw ret
      | .ok subnode => do
        vopRefDec dev n
        pure subnode
    else pure n : V F D _) t := by
  subst hk
  exact Code.bind_ok hdev

theorem vfsLookup_run {r : Except Errno (Vnode F D)} {w : Vfs F D}
    (hdev : getDevice dev s = some (.ok (k, n), t)) (hk : cstr t.path k = rest) (hne : rest ≠ [])
    (hvop : vopLookup dev n rest t = some (r, u)) (hdec : vopRefDec dev n u = some (.ok (), w)) :
    vfsLookup dev s = some (r, w) := by
  rw [vfsLookup_start hdev hk, if_pos hne]
  cases r with
  | error e => exact (Code.attempt_bind hvop).trans ((Code.bind_ok hdec).trans rfl)
  | ok m => exact (Code.attempt_bind hvop).trans ((Code.bind_ok hdec).trans rfl)

theorem vfsLookup_none (hdev : getDevice dev s = some (.ok (k, n), t)) (hk : cstr t.path k = rest)
    (hne : rest ≠ []) (hvop : vopLookup dev n rest t = none) : vfsLookup dev s = none := by
  rw [vfsLookup_start hdev hk, if_pos hne]
  refine Code.bind_none ?_
  rw [Code.attempt, hvop]
  rfl

end

/-- **`vfs_lookup`** takes what the path means, or nothing. -/
theorem vfsLookup_spec (h : s.Ok I E) (hp : Interprets (cstr s.path 0) start rest)
    (hr : s.Resolvable dev start rest) : ∃ r t, vfsLookup dev s = some (r, t) ∧
      t.path = cut s.path start ∧
      ((∃ m, (s.startNode start).bind (s.target rest) = .ok m ∧ r = .ok m ∧ Took I E s t m) ∨
        (∃ e, r = .error e ∧ ((s.startNode start).bind (s.target rest) = .error e ∨
          ∃ f i, s.startNode start = .ok (.file f i) ∧ (dev f).Reports e)) ∧ Kept I E s t) := by
  cases hs : s.startNode start with
  | error e =>
    exact ⟨_, _, Code.bind_error (getDevice_error dev h hp hs), rfl, .inr ⟨⟨e, rfl, .inl rfl⟩,
      ⟨rfl, h.acct, fun _ => .refl _⟩⟩⟩
  | ok n =>
    obtain ⟨k, t, hdev, hk, ht, hpath⟩ := getDevice_ok h hp hr.loads hs
    change ∃ r t, vfsLookup dev s = some (r, t) ∧ t.path = cut s.path start ∧
      ((∃ m, s.target rest n = .ok m ∧ r = .ok m ∧ Took I E s t m) ∨
        (∃ e, r = .error e ∧ (s.target rest n = .error e ∨ _)) ∧ Kept I E s t)
    by_cases hne : rest = []
    · refine ⟨_, t, (vfsLookup_start hdev hk).trans ?_, hpath, .inl ⟨n, if_pos hne, rfl, ht⟩⟩
      rw [if_neg (not_not.2 hne)]
      rfl
    · have hlt := hr.refs n hs hne
      cases n with
      | file f i =>
        obtain ⟨r, u, w, hvop, hdec, hout, hw⟩ := vopLookup_file dev h (startNode_dir h hs) ht hlt
          (hr.name f i hs) ⟨hne, hp.head?_ne⟩
        refine ⟨r, w, vfsLookup_run hdev hk hne hvop hdec, hw.trans hpath, ?_⟩
        rcases hout with hm | ⟨⟨e, rfl, hwhy⟩, hkept⟩
        · exact .inl hm
        · refine .inr ⟨⟨e, rfl, ?_⟩, hkept⟩
          rcases hwhy with ⟨htarget, rfl⟩ | hf
          · exact .inl htarget
          · exact .inr ⟨f, i, rfl, hf⟩
      | device d =>
        obtain ⟨hvop, w, hdec, hkept, hw⟩ := vopLookup_device dev h ht hlt hne
        exact ⟨_, w, vfsLookup_run hdev hk hne hvop hdec, hw.trans hpath,
          .inr ⟨⟨_, rfl, .inl (if_neg hne)⟩, hkept⟩⟩

/-- The kernel stops in `vop_lookup`. -/
theorem vfsLookup_panics (h : s.Ok I E) (hp : Interprets (cstr s.path 0) start rest)
    (hl : ∀ f, s.rootOf start = some f → (s.fs f).Loads (dev f) sfsBlknRoot)
    (hs : s.startNode start = .ok n) (hne : rest ≠ [])
    (hbad : ¬s.refs n + 1 < maxInodeCount ∨ ∃ f i, n = .file f i ∧ ¬rest.length ≤ 255) :
    vfsLookup dev s = none := by
  obtain ⟨k, t, hdev, hk, ht, -⟩ := getDevice_ok h hp hl hs
  refine vfsLookup_none hdev hk hne ?_
  by_cases hlt : s.refs n + 1 < maxInodeCount
  · obtain ⟨f, i, rfl, hlen⟩ := hbad.resolve_left (not_not.2 hlt)
    have hd := startNode_dir h hs
    have hh := ht.gained.1.held ((h.named f).held i hd.2)
    have htype : ((t.fs f).din i).type = sfsTypeDir := by
      rw [← Acct.dinOf_of_cached hh.cached, hh.dinOf]
      exact hd.2
    unfold vopLookup
    dsimp only
    rw [Code.bind_ok (rfl : (Code.get : V F D _) t = _), Code.assert_bind htype,
      Code.bind_ok (ht.check h hlt)]
    refine Code.bind_none ?_
    rw [onFs, Code.on, sfsLookup_panics htype hlen]
    rfl
  · have hcheck : inodeCheck n t = none := inodeCheck_panics (by rw [← ht.pos]; exact hlt)
    unfold vopLookup
    cases n with
    | device d => exact Code.bind_none hcheck
    | file f i =>
      dsimp only
      rw [Code.bind_ok (rfl : (Code.get : V F D _) t = _)]
      by_cases htype : ((t.fs f).din i).type = sfsTypeDir
      · rw [Code.assert_bind htype]
        exact Code.bind_none hcheck
      · exact Code.bind_none (if_neg htype)

/-- A lookup that returns. -/
theorem resolvable_of_run {r : Except Errno (Vnode F D)} (h : s.Ok I E)
    (hp : Interprets (cstr s.path 0) start rest) (hrun : vfsLookup dev s = some (r, t)) :
    s.Resolvable dev start rest := by
  have hl : ∀ f, s.rootOf start = some f → (s.fs f).Loads (dev f) sfsBlknRoot := by
    intro f hf
    by_contra hl
    rw [vfsLookup, Code.bind_none (getDevice_panics h hp hf hl)] at hrun
    cases hrun
  refine ⟨hl, fun f i hs => ?_, fun n hs hne => ?_⟩
  · by_contra hlen
    have hne : rest ≠ [] := by
      rintro rfl
      exact hlen (Nat.zero_le _)
    rw [vfsLookup_panics h hp hl hs hne (.inr ⟨f, i, rfl, hlen⟩)] at hrun
    cases hrun
  · by_contra hlt
    rw [vfsLookup_panics h hp hl hs hne (.inl hlt)] at hrun
    cases hrun

inductive StdDev where
  | stdin
  | stdout
  | disk0
  deriving DecidableEq

/-- `d_open` of the three drivers. -/
def stdOpen : StdDev → BitVec 32 → Option Errno
  | .stdin => stdinOpen
  | .stdout => stdoutOpen
  | .disk0 => fun _ => none

/-- The image is mounted on `disk0`, and its root is the boot file system and the working
    directory. -/
def diskTree : Sfs :=
  (Acct.loaded treeImage 1).setSin 1 fun sin => { sin with refCount := 2 }

/-- The names of the devices. -/
def disk0Name : List UInt8 := [100, 105, 115, 107, 48]
def stdoutName : List UInt8 := [115, 116, 100, 111, 117, 116]
def stdinName : List UInt8 := [115, 116, 100, 105, 110]

def stdVfs (path : List UInt8) : Vfs Unit StdDev where
  vdevList := [⟨disk0Name, .disk0, some (), true⟩, ⟨stdoutName, .stdout, none, false⟩,
    ⟨stdinName, .stdin, none, false⟩]
  bootfs := some (.file () 1)
  pwd := some (.file () 1)
  devRefs _ := 1
  opens _ := 0
  fs _ := diskTree
  path := path

theorem acct_diskTree : Acct {1, 3} ∅ diskTree :=
  (mounted_treeImage.acct.load (by decide) rfl (by decide +kernel)).setSin_same rfl rfl rfl rfl
    fun hd => ⟨hd, Nat.le_refl _⟩

theorem root_type_diskTree : (diskTree.din 1).type = sfsTypeDir := by decide +kernel

theorem named_diskTree : Named {1, 3} diskTree where
  root := by decide
  root_type := by decide +kernel
  links := by decide +kernel
  cap := by decide +kernel
  whole := by decide +kernel
  entries := by decide +kernel
  held := by
    intro d _ sin hsin
    obtain ⟨hc, rfl⟩ := inode_eq_some.1 hsin
    have hd : d = 1 := by
      by_contra hd
      simp [diskTree, Acct.loaded, Sfs.setSin, treeImage, hd] at hc
    subst hd
    decide +kernel

theorem ok_stdVfs (path : List UInt8) : (stdVfs path).Ok (fun _ => {1, 3}) fun _ => ∅ where
  acct _ := acct_diskTree
  named _ := named_diskTree
  bootfs n hn := by
    cases hn
    exact ⟨(), rfl, rfl⟩
  pwd n hn := by
    cases hn
    exact ⟨(), 1, rfl, rfl, root_type_diskTree⟩
  devices _ := one_pos
  opens n := by
    refine ⟨Int.le_refl _, ?_⟩
    cases n with
    | device d => exact Int.zero_le_ofNat 1
    | file f i =>
      change 0 ≤ diskTree.refs i
      rw [Sfs.refs]
      cases hi : diskTree.inode i with
      | none => exact Int.le_refl _
      | some sin =>
        obtain ⟨hc, rfl⟩ := inode_eq_some.1 hi
        have hd : i = 1 := by
          by_contra hd
          simp [diskTree, Acct.loaded, Sfs.setSin, treeImage, hd] at hc
        subst hd
        decide +kernel

end Vfs

end Ucore
