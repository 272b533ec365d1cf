/-
  `vfs_open`: the second pass over the path, and the counts of the inodes.

  * `truncfile_refs`, `vopRefDec_refs`: what a call on a file does to the references;
  * `openNode_counts`: an inode is opened, or dropped;
  * `OpenSound`, `OpenHolds`, `open_sound_iff`: when `vfs_open` does what it should.
-/
import Ucore.Fs.VfsLookup
import Ucore.Fs.CleanInode

set_option linter.unusedSectionVars false

namespace Ucore

/-! ## The references in a file system -/

section
variable {dev : Device} {s t : Sfs} {i j : ℕ} {r : ℕ → ℤ}

theorem refs_of_cached (hc : s.cached i = true) : s.refs i = (s.sin i).refCount :=
  refs_of_inode (inode_of_cached hc)

theorem refs_of_not_cached (hc : s.cached i = false) : s.refs i = 0 := by
  rw [Sfs.refs, inode_eq_none.2 hc]
  rfl

theorem refs_setSin {f : SfsInode → SfsInode} (hf : ∀ sin, (f sin).refCount = sin.refCount) :
    (s.setSin i f).refs j = s.refs j := by
  cases hc : s.cached j with
  | false => rw [refs_of_not_cached hc, refs_of_not_cached (s := s.setSin i f) hc]
  | true =>
    rw [refs_of_cached hc, refs_of_cached (s := s.setSin i f) hc, Sfs.sin_setSin]
    split
    · rename_i hij
      rw [hf, hij]
    · rfl

/-- The references are `r`. -/
def Sfs.RefsAre (r : ℕ → ℤ) (s : Sfs) : Prop := ∀ j, s.refs j = r j

theorem Sfs.RefsAre.setSin {f : SfsInode → SfsInode} (hf : ∀ sin, (f sin).refCount = sin.refCount)
    (h : s.RefsAre r) : (s.setSin i f).RefsAre r := fun j => (refs_setSin hf).trans (h j)

theorem Sfs.RefsAre.lasting : Sfs.Lasting (Sfs.RefsAre r) where
  wait _ _ h := h
  setBlock _ _ _ h := h
  freemap _ _ h := h
  unused _ _ h := h
  setDin _ _ _ h := h.setSin fun _ => rfl
  blocks _ _ h := h.setSin fun _ => rfl

/-- Inode `i` is in memory, and the references are `r`. -/
structure Sfs.Counts (i : ℕ) (r : ℕ → ℤ) (s : Sfs) : Prop where
  cached : s.cached i = true
  refs : s.RefsAre r

theorem Sfs.Counts.lasting : Sfs.Lasting (Sfs.Counts i r) where
  wait _ _ h := ⟨h.cached, h.refs⟩
  setBlock _ _ _ h := ⟨h.cached, h.refs⟩
  freemap _ _ h := ⟨h.cached, h.refs⟩
  unused _ _ h := ⟨h.cached, h.refs⟩
  setDin s j f h := ⟨h.cached, Sfs.RefsAre.lasting.setDin s j f h.refs⟩
  blocks s j h := ⟨h.cached, Sfs.RefsAre.lasting.blocks s j h.refs⟩

theorem fsync_keeps {P : Sfs → Prop} (hP : Sfs.Lasting P)
    (hd : ∀ s j d, P s → P (s.setSin j fun sin => { sin with dirty := d })) :
    (fsync dev i).Keeps P := by
  refine Code.Keeps.get.bind fun s => .ite ?_ (.pure _)
  refine Code.Keeps.bind (.modify fun s => hd s i false) fun _ => ?_
  refine (wbuf_keeps hP.stable).attempt.bind fun x => ?_
  cases x with
  | ok _ => exact .pure _
  | error ret => exact Code.Keeps.bind (.modify fun s => hd s i true) fun _ => .throw _

theorem fsync_counts : (fsync dev j).Keeps (Sfs.Counts i r) :=
  fsync_keeps Sfs.Counts.lasting fun _ _ _ h => ⟨h.cached, h.refs.setSin fun _ => rfl⟩

/-- `sfs_reclaim` of an inode without a reference. -/
theorem reclaim_keeps (h0 : r i = 0) : (reclaim dev i).Keeps (Sfs.RefsAre r) := by
  have hst : Sfs.Stable dev (Sfs.RefsAre r) := Sfs.RefsAre.lasting.stable
  have hdrop : ∀ s : Sfs, s.RefsAre r →
      Sfs.RefsAre r { s with cached := Function.update s.cached i false } := fun s h j => by
    by_cases hj : j = i
    · subst hj
      rw [refs_of_not_cached (by simp), h0]
    · rw [← h j]
      simp [Sfs.refs, Sfs.inode, hj]
  have hfree : (reclaimFree i).Keeps (Sfs.RefsAre r) := Code.Keeps.get.bind fun s =>
    Code.Keeps.bind (.modify hdrop) fun _ => .ite ((hst.free _).bind fun _ =>
      .ite (hst.free _) (.pure _)) (.pure _)
  have hend : (fsync dev i >>= fun _ => reclaimFree i).Keeps (Sfs.RefsAre r) :=
    (fsync_keeps Sfs.RefsAre.lasting fun _ _ _ h => h.setSin fun _ => rfl).bind fun _ => hfree
  refine Code.Keeps.get.bind fun s => (Code.Keeps.assert _).bind fun _ =>
    Code.Keeps.bind (.modify fun _ h => h.setSin fun _ => rfl) fun _ => .ite (.throw _) ?_
  exact .ite ((truncfile_keeps hst).bind fun _ => hend) hend

/-- **`vop_ref_dec`** drops one reference. -/
theorem vopRefDec_refs {x : Except Errno Unit} (hc : s.cached i = true)
    (hr : vopRefDec dev i s = some (x, t)) :
    x = .ok () ∧ t.RefsAre (Function.update s.refs i (s.refs i - 1)) := by
  rw [vopRefDec, Code.get_bind_eq_some, Code.assert_bind_eq_some, Code.modify_bind_eq_some] at hr
  have hdec : (s.setSin i fun sin => { sin with refCount := sin.refCount - 1 }).RefsAre
      (Function.update s.refs i (s.refs i - 1)) := fun j => by
    rw [Function.update_apply]
    split
    · rename_i hj
      subst hj
      rw [refs_of_cached hc, refs_of_cached (s := s.setSin j _) hc, Sfs.sin_setSin, if_pos rfl]
    · rename_i hj
      simp [Sfs.refs, Sfs.inode, Sfs.setSin, hj]
  obtain ⟨hpos, hr⟩ := hr
  split at hr
  · rename_i h1
    rw [Code.attempt_bind_eq_some] at hr
    obtain ⟨r', u, hrec, hpure⟩ := hr
    obtain ⟨rfl, rfl⟩ := Code.pure_eq_some.1 hpure
    refine ⟨rfl, reclaim_keeps ?_ _ _ _ hdec hrec⟩
    rw [Function.update_self, refs_of_cached hc]
    omega
  · obtain ⟨rfl, rfl⟩ := Code.pure_eq_some.1 hr
    exact ⟨rfl, hdec⟩

end

/-- A request does not fail with the error of a missing entry. -/
def Device.Plain (dev : Device) : Prop := ∀ n req, dev.fault n req ≠ some .noEnt

theorem Device.Plain.ne_noEnt {dev : Device} {e : Errno} (h : dev.Plain) (hr : dev.Reports e) :
    e ≠ .noEnt := by
  rintro rfl
  obtain ⟨n, req, hf⟩ | ⟨he, -⟩ := hr
  · exact h n req hf
  · cases he

/-! ## The counts of a node -/

namespace Vfs

variable {F D : Type} [DecidableEq F] [DecidableEq D]

/-- The inode is in memory. -/
def Here (s : Vfs F D) : Vnode F D → Prop
  | .file f i => (s.fs f).cached i = true
  | .device _ => True

/-- Inode `n` is in memory, the references are `R`, and the open counts `O`. -/
structure Counts (n : Vnode F D) (R O : Vnode F D → ℤ) (s : Vfs F D) : Prop where
  here : s.Here n
  refs : s.refs = R
  opens : s.opens = O

variable {dev : F → Device} {dOpen : D → BitVec 32 → Option Errno} {s t : Vfs F D}
  {n m : Vnode F D} {R O : Vnode F D → ℤ} {f : F} {i : ℕ} {flags : BitVec 32} {α : Type}

theorem onFs_counts {x : K α} (hx : ∀ r, x.Keeps (Sfs.Counts i r)) :
    (onFs f x).Keeps (Counts (.file f i) R O) := by
  intro s r t h hr
  obtain ⟨u, hu, rfl⟩ := Code.on_eq_some.1 hr
  have hc : u.Counts i (s.fs f).refs := hx _ _ _ _ ⟨h.here, fun _ => rfl⟩ hu
  refine ⟨?_, ?_, h.opens⟩
  · change (Function.update s.fs f u f).cached i = true
    rw [Function.update_self]
    exact hc.cached
  · rw [← h.refs]
    funext m
    cases m with
    | device d => rfl
    | file g j =>
      have hupd := refs_update s f u s.path g j
      split at hupd
      · rename_i hg
        subst hg
        exact hupd.trans (hc.refs j)
      · exact hupd

theorem inodeCheck_keeps {P : Vfs F D → Prop} : (inodeCheck n).Keeps P :=
  Code.Keeps.get.bind fun _ => (Code.Keeps.assert _).bind fun _ => .assert _

theorem vopTruncate_counts {len : ℤ} : (vopTruncate dev n len).Keeps (Counts n R O) := by
  cases n with
  | file f i =>
    exact Code.Keeps.get.bind fun _ => (Code.Keeps.assert _).bind fun _ =>
      inodeCheck_keeps.bind fun _ => onFs_counts fun _ =>
        truncfile_keeps Sfs.Counts.lasting.stable
  | device d => exact .panic

theorem vopClose_counts : (vopClose dev n).Keeps (Counts n R O) := by
  cases n with
  | file f i => exact inodeCheck_keeps.bind fun _ => onFs_counts fun _ => fsync_counts
  | device d => exact inodeCheck_keeps

/-- The open count of the node is changed. -/
theorem Counts.setOpens (h : s.Counts n R O) (k : ℤ) :
    Counts n R (Function.update O n k) { s with opens := Function.update s.opens n k } := by
  refine ⟨?_, ?_, by rw [h.opens]⟩
  · have hh := h.here
    cases n with
    | file f i => exact hh
    | device d => exact hh
  · rw [← h.refs]
    funext m
    cases m with
    | file g j => rfl
    | device d => rfl

theorem vopOpenDec_counts {x : Except Errno Unit} (h : s.Counts n R O)
    (hr : vopOpenDec dev n s = some (x, t)) :
    x = .ok () ∧ t.Counts n R (Function.update O n (O n - 1)) := by
  rw [vopOpenDec, Code.get_bind_eq_some, Code.assert_bind_eq_some, Code.modify_bind_eq_some] at hr
  have hdec := h.setOpens (s.opens n - 1)
  rw [h.opens] at hdec hr
  obtain ⟨-, hr⟩ := hr
  split at hr
  · rw [Code.attempt_bind_eq_some] at hr
    obtain ⟨r, u, hclose, hpure⟩ := hr
    obtain ⟨rfl, rfl⟩ := Code.pure_eq_some.1 hpure
    exact ⟨rfl, vopClose_counts _ _ _ hdec hclose⟩
  · obtain ⟨rfl, rfl⟩ := Code.pure_eq_some.1 hr
    exact ⟨rfl, hdec⟩

theorem vopRefDec_counts {x : Except Errno Unit} (h : s.Counts n R O)
    (hr : vopRefDec dev n s = some (x, t)) :
    x = .ok () ∧ t.refs = Function.update R n (R n - 1) ∧ t.opens = O := by
  rw [← h.refs, ← h.opens]
  cases n with
  | file f i =>
    rw [vopRefDec, Code.get_bind_eq_some, Code.assert_bind_eq_some] at hr
    obtain ⟨u, hu, rfl⟩ := Code.on_eq_some.1 hr.2
    obtain ⟨rfl, hrefs⟩ := vopRefDec_refs h.here hu
    refine ⟨rfl, ?_, rfl⟩
    funext m
    rw [Function.update_apply]
    cases m with
    | device d => rfl
    | file g j =>
      refine (refs_update s f u s.path g j).trans ?_
      by_cases hg : g = f
      · subst hg
        rw [if_pos rfl, hrefs j, Function.update_apply]
        simp [Vfs.refs]
      · rw [if_neg hg, if_neg (by simp [hg])]
        rfl
  | device d =>
    rw [vopRefDec, Code.get_bind_eq_some, Code.assert_bind_eq_some,
      Code.modify_bind_eq_some] at hr
    obtain ⟨-, hr⟩ := hr
    split at hr
    · exact absurd hr (by simp)
    · obtain ⟨rfl, rfl⟩ := Code.pure_eq_some.1 hr
      refine ⟨rfl, ?_, rfl⟩
      funext m
      cases m with
      | file g j => simp [Vfs.refs]
      | device d' => simp [Vfs.refs, Function.update_apply]

theorem vopOpen_same {x : Except Errno Unit} (hr : vopOpen dOpen n flags s = some (x, t)) :
    t = s := by
  have hk : (vopOpen dOpen n flags).Keeps (· = s) := inodeCheck_keeps.bind fun _ =>
    Code.Keeps.get.bind fun u => by
      dsimp only
      split
      · exact .pure _
      · exact .throw _
  exact hk s x t rfl hr

/-- **The inode is opened, or dropped.** -/
theorem openNode_counts {x : Except Errno (Vnode F D)} (h : s.Counts n R O)
    (hr : openNode dev dOpen flags n s = some (x, t)) :
    (∀ m, x = .ok m → m = n ∧ t.refs = R ∧ t.opens = Function.update O n (O n + 1)) ∧
      ∀ e, x = .error e → t.refs = Function.update R n (R n - 1) ∧ t.opens = O := by
  rw [openNode, Code.attempt_bind_eq_some] at hr
  obtain ⟨r, u, hopen, hr⟩ := hr
  obtain rfl := vopOpen_same hopen
  cases r with
  | error ret =>
    obtain ⟨_, v, hdec, hthrow⟩ | ⟨e, hdec, -⟩ := Code.bind_eq_some.1 hr
    · obtain ⟨rfl, rfl⟩ := Code.throw_eq_some.1 hthrow
      exact ⟨fun m hm => (by cases hm), fun _ _ => (vopRefDec_counts h hdec).2⟩
    · cases (vopRefDec_counts h hdec).1
  | ok _ =>
    dsimp only at hr
    rw [vopOpenInc, Code.modify_bind_eq_some] at hr
    have hinc := h.setOpens (u.opens n + 1)
    rw [h.opens] at hinc hr
    split at hr
    · rw [Code.attempt_bind_eq_some] at hr
      obtain ⟨r, v, htrunc, hr⟩ := hr
      have hv := vopTruncate_counts _ _ _ hinc htrunc
      cases r with
      | error ret =>
        obtain ⟨_, w, hodec, hr⟩ | ⟨e, hodec, -⟩ := Code.bind_eq_some.1 hr
        · have hw := (vopOpenDec_counts hv hodec).2
          rw [Function.update_idem, Function.update_self, Int.add_sub_cancel,
            Function.update_eq_self] at hw
          obtain ⟨_, y, hdec, hthrow⟩ | ⟨e, hdec, -⟩ := Code.bind_eq_some.1 hr
          · obtain ⟨rfl, rfl⟩ := Code.throw_eq_some.1 hthrow
            exact ⟨fun m hm => (by cases hm), fun _ _ => (vopRefDec_counts hw hdec).2⟩
          · cases (vopRefDec_counts hw hdec).1
        · cases (vopOpenDec_counts hv hodec).1
      | ok _ =>
        obtain ⟨rfl, rfl⟩ := Code.pure_eq_some.1 hr
        refine ⟨fun m hm => ?_, fun e he => by cases he⟩
        cases hm
        exact ⟨rfl, hv.refs, hv.opens⟩
    · obtain ⟨rfl, rfl⟩ := Code.pure_eq_some.1 hr
      refine ⟨fun m hm => ?_, fun e he => by cases he⟩
      cases hm
      exact ⟨rfl, hinc.refs, hinc.opens⟩

/-! ## `vfs_open` -/

/-- **`vfs_open` is right**, whatever requests fail: where it goes on to create a file, what
`vfs_lookup_parent` finds are the start and the name that `vfs_lookup` used; where it returns an
inode, that has one reference more and is open once more, and otherwise the counts are as before. -/
def OpenSound (s : Vfs F D) (dOpen : D → BitVec 32 → Option Errno) (flags : BitVec 32)
    (start : Start) (rest : List UInt8) : Prop :=
  ∀ dev : F → Device, (∀ f, (dev f).Plain) →
    (FlagsOk flags → flags &&& oCreat ≠ 0 → ∀ n t, s.startNode start = .ok n →
      vfsLookup dev s = some (.error .noEnt, t) →
        ∀ r u, vfsLookupParent dev t = some (r, u) → ∃ k, r = .ok (k, n) ∧ cstr u.path k = rest) ∧
    ∀ r t, vfsOpen dev dOpen flags s = some (r, t) →
      (∀ n, r = .ok n → t.refs = Function.update s.refs n (s.refs n + 1) ∧
        t.opens = Function.update s.opens n (s.opens n + 1)) ∧
      ∀ e, r = .error e → t.refs = s.refs ∧ t.opens = s.opens

/-- A file that is to be created and must not be there is not, and one that is created behind the
name of a device has that name, in the working directory. -/
def OpenHolds (s : Vfs F D) (flags : BitVec 32) (start : Start) (rest : List UInt8) : Prop :=
  FlagsOk flags → flags &&& oCreat ≠ 0 → s.Resolvable (fun _ => soundDevice) start rest →
    ∀ n, s.startNode start = .ok n →
      (flags &&& oExcl ≠ 0 → ∀ m, s.target rest n ≠ .ok m) ∧
      ∀ name, start = .device name → s.target rest n = .error .noEnt →
        s.pwd = some n ∧ rest = name

section
variable {I : F → Finset ℕ} {E : F → Set ℕ} {u : Vfs F D} {start : Start} {rest name : List UInt8}

theorem Kept.cached (h : Kept I E s t) : (t.fs f).cached i = (s.fs f).cached i := by
  have hi := congrFun (h.moves f).inode i
  cases hc : (s.fs f).cached i with
  | false =>
    rw [inode_eq_none.2 hc] at hi
    exact inode_eq_none.1 hi
  | true =>
    rw [inode_of_cached hc] at hi
    exact (inode_eq_some.1 hi).1

theorem Kept.dinOf (h : Kept I E s t) : (t.fs f).dinOf i = (s.fs f).dinOf i := by
  rw [dinOf_inode, dinOf_inode, (h.moves f).inode, (h.moves f).disk]

/-- A state that differs in the path and in the time is sound. -/
theorem Kept.ok (h : Kept I E s t) (hs : s.Ok I E) : t.Ok I E := by
  have hbmap : ∀ f d k, (t.fs f).bmap d k = (s.fs f).bmap d k := fun f d k => by
    rw [Sfs.bmap, Sfs.bmap, h.dinOf, (h.moves f).disk]
  have hentry : ∀ f d k, (t.fs f).entry d k = (s.fs f).entry d k := fun f d k => by
    rw [Sfs.entry, Sfs.entry, hbmap, (h.moves f).disk]
  have hboot : t.bootfs = s.bootfs := by rw [h.eq]
  have hpwd : t.pwd = s.pwd := by rw [h.eq]
  have hdevs : t.devRefs = s.devRefs := by rw [h.eq]
  refine ⟨h.acct, fun f => ?_, fun n hn => ?_, fun n hn => ?_, fun d => ?_, fun n => ?_⟩
  · have hn := hs.named f
    refine ⟨hn.root, ?_, ?_, ?_, ?_, ?_, ?_⟩
    · rw [h.dinOf]
      exact hn.root_type
    · simpa only [h.dinOf] using hn.links
    · simpa only [h.dinOf] using hn.cap
    · simpa only [h.dinOf, hbmap] using hn.whole
    · simpa only [h.dinOf, hentry] using hn.entries
    · simpa only [h.dinOf, (h.moves f).inode] using hn.held
  · rw [hboot] at hn
    simpa only [h.cached] using hs.bootfs n hn
  · rw [hpwd] at hn
    obtain ⟨f, i, rfl, hc, ht⟩ := hs.pwd n hn
    have hc' : (t.fs f).cached i = true := by rwa [h.cached]
    refine ⟨f, i, rfl, hc', ?_⟩
    rwa [← Acct.dinOf_of_cached hc', h.dinOf, Acct.dinOf_of_cached hc]
  · rw [hdevs]
    exact hs.devices d
  · rw [h.opens, h.refs]
    exact hs.opens n

theorem Kept.startNode (h : Kept I E s t) (start : Start) :
    t.startNode start = s.startNode start := by
  rw [h.eq]
  cases start <;> rfl

/-- `get_device`, if it returns. -/
theorem getDevice_run {r : Except Errno (ℕ × Vnode F D)} (h : s.Ok I E)
    (hp : Interprets (cstr s.path 0) start rest) (hrun : getDevice dev s = some (r, t)) :
    (∀ n, s.startNode start = .ok n → ∃ k, r = .ok (k, n) ∧ cstr t.path k = rest) ∧
      ∀ e, s.startNode start = .error e → r = .error e ∧ t.refs = s.refs ∧ t.opens = s.opens := by
  have hl : ∀ f, s.rootOf start = some f → (s.fs f).Loads (dev f) sfsBlknRoot := by
    intro f hf
    by_contra hl
    rw [getDevice_panics h hp hf hl] at hrun
    cases hrun
  refine ⟨fun n hs => ?_, fun e hs => ?_⟩
  · obtain ⟨k, u, hdev, hk, -, -⟩ := getDevice_ok h hp hl hs
    cases hrun.symm.trans hdev
    exact ⟨k, rfl, hk⟩
  · cases hrun.symm.trans (getDevice_error dev h hp hs)
    exact ⟨rfl, rfl, rfl⟩

/-- The name of a device, when the path has been cut behind it. -/
theorem interprets_cut (hp : Interprets (cstr s.path 0) (.device name) rest) :
    Interprets (cstr (cut s.path (.device name)) 0) .cwd name := by
  obtain ⟨l, hl⟩ : ∃ l, cstr s.path 0 = l := ⟨_, rfl⟩
  rw [hl] at hp
  cases hp with
  | device _ hc hs =>
    have hcut : cstr (cut s.path (.device name)) 0 = name := cstr_set hl
    rw [hcut]
    refine .cwd (fun hh => hs (List.mem_of_mem_head? hh)) fun name' rest' h => ?_
    exact absurd (h ▸ by simp) hc

theorem Resolvable.sound (h : s.Resolvable dev start rest) :
    s.Resolvable (fun _ => soundDevice) start rest :=
  ⟨fun _ _ => .inr ⟨rfl, rfl, rfl⟩, h.name, h.refs⟩

/-- The second pass finds what the first one used. -/
theorem second_pass {r : Except Errno (ℕ × Vnode F D)} (hplain : ∀ f, (dev f).Plain)
    (h : s.Ok I E) (hp : Interprets (cstr s.path 0) start rest)
    (hh : s.OpenHolds flags start rest) (hf : FlagsOk flags) (hc : flags &&& oCreat ≠ 0)
    (hs : s.startNode start = .ok n) (hrun : vfsLookup dev s = some (.error .noEnt, t))
    (hrun' : vfsLookupParent dev t = some (r, u)) : ∃ k, r = .ok (k, n) ∧ cstr u.path k = rest := by
  have hres := resolvable_of_run h hp hrun
  obtain ⟨r', t', hrun₂, hpath, hout⟩ := vfsLookup_spec h hp hres
  cases hrun.symm.trans hrun₂
  rcases hout with ⟨m, -, he, -⟩ | ⟨⟨e, he, hwhy⟩, hkept⟩
  · cases he
  · cases he
    have htarget : s.target rest n = .error .noEnt := by
      rcases hwhy with htarget | ⟨f, i, -, hrep⟩
      · rw [hs] at htarget
        exact htarget
      · exact absurd rfl ((hplain f).ne_noEnt hrep)
    have hsame : t.path = s.path → ∃ k, r = .ok (k, n) ∧ cstr u.path k = rest := fun hsame => by
      rw [← hsame] at hp
      exact (getDevice_run (hkept.ok h) hp hrun').1 n ((hkept.startNode start).trans hs)
    cases start with
    | device name =>
      obtain ⟨hpwd, rfl⟩ := (hh hf hc hres.sound n hs).2 name rfl htarget
      have hcut := interprets_cut hp
      rw [← hpath] at hcut
      refine (getDevice_run (hkept.ok h) hcut hrun').1 n ((hkept.startNode .cwd).trans ?_)
      exact congrArg orNoEnt hpwd
    | boot => exact hsame hpath
    | root => exact hsame hpath
    | cwd => exact hsame hpath

theorem Took.here (h : Took I E s t n) : t.Here n := by
  cases n with
  | device d => trivial
  | file f i =>
    have hin : (t.fs f).inode i = some ((s.fs f).taken i) := by
      rw [h.gained.1.moves.inode, Function.update_self]
    exact (inode_eq_some.1 hin).1

/-- The counts when `vfs_open` returns. -/
theorem vfsOpen_counts {r : Except Errno (Vnode F D)} (h : s.Ok I E)
    (hp : Interprets (cstr s.path 0) start rest) (hh : s.OpenHolds flags start rest)
    (hr : vfsOpen dev dOpen flags s = some (r, t)) :
    (∀ n, r = .ok n → t.refs = Function.update s.refs n (s.refs n + 1) ∧
        t.opens = Function.update s.opens n (s.opens n + 1)) ∧
      ∀ e, r = .error e → t.refs = s.refs ∧ t.opens = s.opens := by
  unfold vfsOpen at hr
  split at hr
  · rename_i hf
    rw [Code.attempt_bind_eq_some] at hr
    obtain ⟨r₁, u, hrun, hr⟩ := hr
    have hres := resolvable_of_run h hp hrun
    obtain ⟨r', u', hrun₂, -, hout⟩ := vfsLookup_spec h hp hres
    cases hrun.symm.trans hrun₂
    rcases hout with ⟨m, htarget, rfl, htook⟩ | ⟨⟨e, rfl, -⟩, hkept⟩
    · dsimp only at hr
      split at hr
      · rename_i hx
        exfalso
        cases hs : s.startNode start with
        | error e =>
          rw [hs] at htarget
          cases htarget
        | ok n =>
          rw [hs] at htarget
          exact (hh hf hx.2 hres.sound n hs).1 hx.1 m htarget
      · obtain ⟨hok, herr⟩ := openNode_counts ⟨htook.here, rfl, rfl⟩ hr
        rw [htook.refs, htook.opens] at hok herr
        refine ⟨fun n hn => ?_, fun e he => ?_⟩
        · obtain ⟨rfl, h1, h2⟩ := hok n hn
          exact ⟨h1, h2⟩
        · obtain ⟨h1, h2⟩ := herr e he
          rw [Function.update_idem, Function.update_self, Int.add_sub_cancel,
            Function.update_eq_self] at h1
          exact ⟨h1, h2⟩
    · dsimp only at hr
      split at hr
      · obtain ⟨a, v, -, hcreate⟩ | ⟨e', hdev, rfl⟩ := Code.bind_eq_some.1 hr
        · exact absurd hcreate (by simp [vopCreate, Code.bind_eq_some])
        · obtain ⟨start', rest', hp'⟩ := interprets_total (cstr u.path 0)
          obtain ⟨hok, herr⟩ := getDevice_run (hkept.ok h) hp' hdev
          refine ⟨fun n hn => (by cases hn), fun _ _ => ?_⟩
          cases hs : u.startNode start' with
          | ok n =>
            obtain ⟨k, hk, -⟩ := hok n hs
            cases hk
          | error e'' =>
            obtain ⟨-, h1, h2⟩ := herr e'' hs
            exact ⟨h1.trans hkept.refs, h2.trans hkept.opens⟩
      · obtain ⟨rfl, rfl⟩ := Code.throw_eq_some.1 hr
        exact ⟨fun n hn => (by cases hn), fun _ _ => ⟨hkept.refs, hkept.opens⟩⟩
  · obtain ⟨rfl, rfl⟩ := Code.throw_eq_some.1 hr
    exact ⟨fun n hn => (by cases hn), fun _ _ => ⟨rfl, rfl⟩⟩

/-- On a device without a fault both defects show. -/
theorem OpenSound.holds (h : s.Ok I E) (hp : Interprets (cstr s.path 0) start rest)
    (hsound : s.OpenSound dOpen flags start rest) : s.OpenHolds flags start rest := by
  intro hf hc hres n hs
  have hplain : ∀ _ : F, soundDevice.Plain := fun _ _ _ he => by cases he
  have hreports : ∀ e, ¬soundDevice.Reports e := by
    rintro e (⟨_, _, he⟩ | ⟨-, _, _, he⟩)
    · cases he
    · exact he rfl
  obtain ⟨hpass, hcounts⟩ := hsound (fun _ => soundDevice) hplain
  obtain ⟨r, t, hrun, hpath, hout⟩ := vfsLookup_spec h hp hres
  rw [hs] at hout
  refine ⟨fun hx m hm => ?_, fun name hstart hno => ?_⟩
  · rcases hout with ⟨m', hm', rfl, htook⟩ | ⟨⟨e, -, he | ⟨_, _, -, he⟩⟩, -⟩
    · have hopen : vfsOpen (fun _ => soundDevice) dOpen flags s = some (.error .exists, t) := by
        unfold vfsOpen
        rw [if_pos hf]
        refine (Code.attempt_bind hrun).trans ?_
        dsimp only
        rw [if_pos ⟨hx, hc⟩]
        rfl
      have hrefs := congrFun ((hcounts _ _ hopen).2 _ rfl).1 m'
      rw [htook.refs, Function.update_self] at hrefs
      omega
    · cases hm.symm.trans he
    · exact hreports _ he
  · subst hstart
    rcases hout with ⟨m, hm, -, -⟩ | ⟨⟨e, rfl, he | ⟨_, _, -, he⟩⟩, hkept⟩
    · cases hno.symm.trans hm
    · cases hno.symm.trans he
      have hcut := interprets_cut hp
      rw [← hpath] at hcut
      have hstart : t.startNode .cwd = orNoEnt s.pwd := hkept.startNode .cwd
      cases hpwd : s.pwd with
      | none =>
        rw [hpwd] at hstart
        obtain ⟨k, hk, -⟩ := hpass hf hc n t hs hrun _ _
          (getDevice_error (fun _ => soundDevice) (hkept.ok h) hcut hstart)
        cases hk
      | some m =>
        rw [hpwd] at hstart
        have hroot : ∀ f, t.rootOf .cwd = some f → (t.fs f).Loads soundDevice sfsBlknRoot :=
          fun f hf => by cases hf
        obtain ⟨k, u, hdev, hname, -, -⟩ : ∃ k u, getDevice (fun _ => soundDevice) t = _ ∧ _ :=
          getDevice_ok (hkept.ok h) hcut hroot hstart
        obtain ⟨k', hk, hrest⟩ := hpass hf hc n t hs hrun _ _ hdev
        cases hk
        exact ⟨rfl, hrest.symm.trans hname⟩
    · exact absurd he (hreports _)

end

/-! ## Paths of the kernel -/

theorem interprets_letter (c : UInt8) (h : c ≠ 0 ∧ ¬Special c) :
    Interprets (cstr [c] 0) .cwd [c] := by
  have hstr : cstr [c] 0 = [c] := by simp [cstr, h.1]
  rw [Special, not_or] at h
  rw [hstr]
  refine .cwd (fun hh => h.2.2 (Option.some.inj hh)) fun name rest he => ?_
  have hmem : chColon ∈ [c] := he ▸ by simp
  exact absurd (List.mem_singleton.1 hmem).symm h.2.1

theorem resolvable_stdVfs {path rest : List UInt8} {start : Start} {n : Vnode Unit StdDev}
    (hs : (stdVfs path).startNode start = .ok n) (hn : n = .file () 1) (hlen : rest.length ≤ 255) :
    (stdVfs path).Resolvable (fun _ => soundDevice) start rest := by
  refine ⟨fun _ _ => .inr ⟨rfl, rfl, rfl⟩, fun _ _ _ => hlen, fun m hm _ => ?_⟩
  cases hs.symm.trans hm
  rw [hn]
  change diskTree.refs 1 + 1 < maxInodeCount
  decide +kernel

end Vfs

end Ucore
