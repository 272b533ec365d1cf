/-
  The inodes that a lookup takes and drops.

  * `Named`: a file system whose directories name its inodes;
  * `Sfs.Loads`: `sfs_load_inode` finds the inode in memory, or its requests do not fail;
  * `sfsLookup_spec`: the inode with the name is taken, and nothing else is;
  * `Vfs.Ok`, `Vfs.Took`, `Vfs.Kept`: the state of a call, one reference more, and as many as
    before.
-/
import Ucore.Fs.VfsPath
import Ucore.Fs.BlockMapErrors

set_option linter.unusedSectionVars false

namespace Ucore

/-! ## A file system -/

/-- The directories name inodes, and those in memory are referenced. -/
structure Named (I : Finset ℕ) (s : Sfs) : Prop where
  root : sfsBlknRoot ∈ I
  root_type : (s.dinOf sfsBlknRoot).type = sfsTypeDir
  links : ∀ i ∈ I, (s.dinOf i).nlinks ≠ 0
  cap : ∀ d ∈ I, (s.dinOf d).type = sfsTypeDir → (s.dinOf d).blocks ≤ 1036
  whole : ∀ d ∈ I, (s.dinOf d).type = sfsTypeDir → ∀ k < (s.dinOf d).blocks, s.bmap d k ≠ 0
  entries : ∀ d ∈ I, (s.dinOf d).type = sfsTypeDir → ∀ k < (s.dinOf d).blocks,
    (s.entry d k).ino ≠ 0 → (s.entry d k).ino ∈ I
  held : ∀ d, (s.dinOf d).type = sfsTypeDir → ∀ sin, s.inode d = some sin → 0 < sin.refCount

/-- The error is that of a request; that of `kmalloc` is `-E_NO_MEM`. -/
def Device.Reports (dev : Device) (e : Errno) : Prop :=
  (∃ n req, dev.fault n req = some e) ∨ e = .noMem ∧ dev.Faulty

/-- `sfs_load_inode` succeeds. -/
def Sfs.Loads (dev : Device) (s : Sfs) (i : ℕ) : Prop :=
  s.cached i = true ∨ dev.fault s.time .kmalloc = none ∧ dev.fault (s.time + 1) .read = none ∧
    dev.fault (s.time + 2) .kmalloc = none

section
variable {dev : Device} {I : Finset ℕ} {E : Set ℕ} {s t u : Sfs} {i j n : ℕ}
  {m : ℕ → Option SfsInode} {sin : SfsInode} {path : List UInt8}

theorem refs_of_inode (h : s.inode i = some sin) : s.refs i = sin.refCount := by
  rw [Sfs.refs, h]
  rfl

theorem Sfs.Moves.refs (h : s.Moves t m) : t.refs j = ((m j).map SfsInode.refCount).getD 0 := by
  rw [Sfs.refs, h.inode]

theorem refCount_taken : (s.taken n).refCount = s.refs n + 1 := by
  rw [Sfs.taken, Sfs.refs]
  cases s.inode n <;> rfl

/-- One reference more. -/
theorem Gained.refs (h : Gained I E s n t) :
    t.refs j = if j = n then s.refs n + 1 else s.refs j := by
  rw [h.moves.refs, Function.update_apply]
  split
  · exact refCount_taken
  · rfl

theorem Gained.wait {k : ℕ} (h : Gained I E (s.wait k) n t) : Gained I E s n t :=
  ⟨h.acct, ((Sfs.Moves.refl s).wait k).trans h.moves⟩

/-! ## Errors -/

theorem kmalloc_ok (h : dev.fault s.time .kmalloc = none) :
    kmalloc dev s = some (.ok (), s.wait 1) := Code.attempt_bind (request_ok h)

theorem kmalloc_error {e : Errno} (h : dev.fault s.time .kmalloc = some e) :
    kmalloc dev s = some (.error .noMem, s.wait 1) := Code.attempt_bind (request_error h)

theorem kmalloc_reports {e : Errno} (hr : kmalloc dev s = some (.error e, t)) : dev.Reports e := by
  cases hk : dev.fault s.time .kmalloc with
  | none =>
    rw [kmalloc_ok hk] at hr
    cases hr
  | some e' =>
    rw [kmalloc_error hk] at hr
    cases hr
    exact .inr ⟨rfl, _, _, by rw [hk]; simp⟩

theorem rbuf_reports {len b offset : ℕ} {e : Errno}
    (hr : rbuf dev len b offset s = some (.error e, t)) : dev.Reports e := by
  simp only [rbuf, readBlock, checkBlkno, bind_assoc, Code.get_bind_eq_some,
    Code.assert_bind_eq_some] at hr
  obtain ⟨_, u, -, hk⟩ | ⟨e', hreq, he⟩ := Code.bind_eq_some.1 hr.2.2
  · cases hk
  · cases he
    obtain ⟨-, ⟨hok, -⟩ | ⟨e', he, hf⟩⟩ := request_eq_some hreq
    · cases hok
    · cases he
      exact .inl ⟨_, _, hf⟩

/-- Mapping a block that is there makes one request, or none. -/
theorem bmapFailure_reports {k : ℕ} {p : BmapStep} {e : Errno}
    (h : dev.bmapFailure s i k false = some (p, e)) : dev.Reports e := by
  have hread : ∀ {time free : ℕ}, dev.firstFailure [.request .read] time free = some (p, e) →
      dev.Reports e := by
    intro time free h
    cases hf : dev.fault time .read with
    | none =>
      rw [firstFailure_passes hf] at h
      cases h
    | some e' =>
      rw [firstFailure_fault hf] at h
      cases h
      exact .inl ⟨_, _, hf⟩
  have hnone : ∀ {time free : ℕ}, dev.firstFailure [] time free ≠ some (p, e) := fun h => by cases h
  simp only [Device.bmapFailure, Sfs.bmapSteps, Bool.false_eq_true, and_false, if_false] at h
  split at h
  · exact absurd h hnone
  · split at h
    · exact hread h
    · exact absurd h hnone

theorem bmapLoad_reports {k : ℕ} {e : Errno} (h : Acct I E s) (hc : s.cached i = true)
    (hk : k < 1036) (hlt : k < (s.din i).blocks)
    (hr : bmapLoad dev i k s = some (.error e, t)) : dev.Reports e := by
  rw [bmapLoad, Code.get_bind_eq_some, Code.assert_bind_eq_some,
    decide_eq_false (Nat.ne_of_lt hlt)] at hr
  have hends : s.Ends (dev.bmapFailure s i k false) (bmapGet dev i k false) := bmapGet_ends h hc hk
  obtain ⟨b, v, h₁, h₂⟩ | ⟨e', h₁, he⟩ := Code.bind_eq_some.1 hr.2
  · obtain ⟨n, rfl, hb | ⟨e', he, -⟩⟩ := bmapGet_old h hc hk (.inl rfl) h₁
    · obtain ⟨-, h₂⟩ := (assertInuse_bind_iff (h.wait n).geo.bits).1 h₂
      rw [if_neg (Nat.ne_of_lt hlt)] at h₂
      cases h₂
    · cases he
  · cases he
    cases hf : dev.bmapFailure s i k false with
    | none =>
      rw [hf] at hends
      obtain ⟨b, v, hok⟩ := hends
      cases h₁.symm.trans hok
    | some pe =>
      obtain ⟨u, hu, -⟩ := hends.left (p := pe.1) (e := pe.2) hf
      cases h₁.symm.trans hu
      exact bmapFailure_reports hf

theorem direntRead_reports {k : ℕ} {e : Errno} (h : Acct I E s) (hd : Directory s i)
    (hk : k < (s.din i).blocks) (hr : direntRead dev i k s = some (.error e, t)) :
    dev.Reports e := by
  have hcap : k < 1036 := lt_of_lt_of_le hk hd.cap
  have h0 := hd.whole k hcap hk
  rw [direntRead, Code.get_bind_eq_some, Code.assert_bind_eq_some] at hr
  obtain ⟨b, u, h₁, h₂⟩ | ⟨e', h₁, he⟩ := Code.bind_eq_some.1 hr.2
  · obtain ⟨n, r, hrun, rfl | ⟨-, e', rfl⟩⟩ : s.Reads dev (bmapLoad dev i k) _ :=
      bmapLoad_reads h hd.cached hcap hk h0
    · cases h₁.symm.trans hrun
      obtain ⟨-, h₂⟩ := (assertInuse_bind_iff (h.wait n).geo.bits).1 h₂
      obtain ⟨m, v, -, h₃⟩ | ⟨e', h₃, he⟩ := Code.bind_eq_some.1 h₂
      · cases h₃
      · cases he
        exact rbuf_reports h₃
    · cases h₁.symm.trans hrun
  · cases he
    exact bmapLoad_reports h hd.cached hcap hk h₁

/-- The loop finds no name, or a request fails. -/
theorem searchLoop_error {name : List UInt8} {e : Errno} : ∀ {n k : ℕ} {s : Sfs}, Acct I E s →
    Directory s i → k + n = (s.din i).blocks → searchLoop dev i name k n s = some (.error e, t) →
      (((List.range' k n).find? fun k => (s.entry i k).ino ≠ 0 ∧ name = (s.entry i k).str) = none ∧
        e = .noEnt) ∨ dev.Reports e
  | 0, k, s, _, _, _, hr => by
    cases hr
    exact .inl ⟨rfl, rfl⟩
  | n + 1, k, s, h, hd, hk, hr => by
    obtain ⟨entry, u, h₁, h₂⟩ | ⟨e', h₁, he⟩ := Code.bind_eq_some.1 hr
    · obtain ⟨m, r, hrun, rfl | ⟨-, e', rfl⟩⟩ : s.Reads dev (direntRead dev i k) _ :=
        direntRead_reads h hd (by omega)
      · cases h₁.symm.trans hrun
        have hk' : k + 1 + n = ((s.wait m).din i).blocks := by
          change k + 1 + n = (s.din i).blocks
          omega
        rw [List.range'_succ, List.find?_cons]
        split at h₂
        · rename_i h0
          rw [decide_eq_false (fun h => h.1 h0)]
          exact searchLoop_error (s := s.wait m) (h.wait m) (hd.wait m) hk' h₂
        · split at h₂
          · cases h₂
          · rename_i hn
            rw [decide_eq_false (fun h => hn h.2)]
            exact searchLoop_error (s := s.wait m) (h.wait m) (hd.wait m) hk' h₂
      · cases h₁.symm.trans hrun
    · cases he
      exact .inr (direntRead_reports h hd (by omega) h₁)

theorem direntSearch_error {name : List UInt8} {e : Errno} (h : Acct I E s) (hd : Directory s i)
    (hr : direntSearch dev i name s = some (.error e, t)) :
    s.slotOf i name = none ∧ e = .noEnt ∨ dev.Reports e := by
  rw [direntSearch, Code.assert_bind_eq_some] at hr
  obtain ⟨_, u, h₁, h₂⟩ | ⟨e', h₁, he⟩ := Code.bind_eq_some.1 hr.2
  · obtain ⟨n, r, hrun, -⟩ : s.Reads dev (kmalloc dev) _ := kmalloc_reads
    cases h₁.symm.trans hrun
    have hloop := searchLoop_error (h.wait n) (hd.wait n) (Nat.zero_add _) h₂
    rw [← List.range_eq_range'] at hloop
    rw [Sfs.slotOf, hd.dinOf]
    exact hloop
  · cases he
    exact .inr (kmalloc_reports h₁)

/-- An inode that is not in memory is read if no request fails. -/
theorem readInode_run (dev : Device) (h : Acct I E s) (hi : i ∈ I)
    (hl : (DiskInode.ofBytes (s.disk i)).nlinks ≠ 0) :
    ∃ r t, readInode dev i s = some (r, t) ∧ (∀ e, r = .error e → dev.Reports e) ∧
      ((∃ m, r = .ok m) ↔ dev.fault s.time .kmalloc = none ∧
        dev.fault (s.time + 1) .read = none ∧ dev.fault (s.time + 2) .kmalloc = none) := by
  obtain ⟨h0, hlt, hbit⟩ := h.inode_used hi
  have hin : assertInuse i (s.wait 1) = some (.ok (), s.wait 1) :=
    (assertInuse_iff (h.wait 1).geo.bits).2 ⟨⟨h0, hlt, hbit⟩, rfl, rfl⟩
  unfold readInode
  cases hk : dev.fault s.time .kmalloc with
  | some e =>
    refine ⟨_, _, Code.bind_error (kmalloc_error hk), fun e' he => ?_, by simp⟩
    cases he
    exact kmalloc_reports (kmalloc_error hk)
  | none =>
    rw [Code.bind_ok (kmalloc_ok hk), Code.bind_ok hin]
    cases hr : dev.fault (s.time + 1) .read with
    | some e =>
      have hread : rbuf dev 64 i 0 (s.wait 1) = some (.error e, (s.wait 1).wait 1) :=
        rbuf_error h0 hlt (by decide) (by decide) hr
      refine ⟨_, _, Code.bind_error hread, fun e' he => ?_, by simp⟩
      cases he
      exact rbuf_reports hread
    | none =>
      have hread : rbuf dev 64 i 0 (s.wait 1) =
          some (.ok ((s.disk i).from' 0), (s.wait 1).wait 1) :=
        rbuf_ok h0 hlt (by decide) (by decide) hr
      have hfrom : (s.disk i).from' 0 = s.disk i :=
        funext fun q => by rw [Bytes.from', Nat.zero_add]
      rw [hfrom] at hread
      rw [Code.bind_ok hread, Code.assert_bind hl]
      cases hk' : dev.fault (s.time + 2) .kmalloc with
      | some e =>
        have hkm := kmalloc_error (s := (s.wait 1).wait 1) hk'
        refine ⟨_, _, Code.bind_error hkm, fun e' he => ?_, by simp⟩
        cases he
        exact kmalloc_reports hkm
      | none =>
        exact ⟨_, _, (Code.bind_ok (kmalloc_ok hk')).trans rfl, fun e he => (by cases he), by simp⟩

theorem loadInode_loads (h : Acct I E s) (hi : i ∈ I) (hl : (s.dinOf i).nlinks ≠ 0)
    (hd : s.Loads dev i) : ∃ t, loadInode dev i s = some (.ok (), t) ∧ Gained I E s i t := by
  obtain ⟨r, t, hrun, ⟨rfl, hg⟩ | ⟨-, ⟨e, rfl⟩, k, rfl⟩⟩ := loadInode_gained dev h hi hl
  · exact ⟨t, hrun, hg⟩
  · exfalso
    cases hc : s.cached i with
    | true =>
      rw [loadInode, Code.bind_ok (rfl : (Code.get : K Sfs) s = _), if_pos hc] at hrun
      cases hrun
    | false =>
      rw [dinOf_inode, inode_eq_none.2 hc] at hl
      obtain ⟨r, u, hread, -, hiff⟩ := readInode_run dev h hi hl
      obtain ⟨m, rfl⟩ := hiff.2 (hd.resolve_left (by simp [hc]))
      rw [loadInode_uncached hc, Code.bind_ok hread] at hrun
      cases hrun

theorem loadInode_fails (h : Acct I E s) (hi : i ∈ I) (hl : (s.dinOf i).nlinks ≠ 0)
    (hd : ¬s.Loads dev i) : ∃ e t, loadInode dev i s = some (.error e, t) := by
  rw [Sfs.Loads, not_or, Bool.not_eq_true] at hd
  rw [dinOf_inode, inode_eq_none.2 hd.1] at hl
  obtain ⟨r, u, hread, -, hiff⟩ := readInode_run dev h hi hl
  cases r with
  | ok m => exact absurd (hiff.1 ⟨m, rfl⟩) hd.2
  | error e => exact ⟨e, u, (loadInode_uncached hd.1).trans (Code.bind_error hread)⟩

theorem loadInode_reports {e : Errno} (h : Acct I E s) (hi : i ∈ I) (hl : (s.dinOf i).nlinks ≠ 0)
    (hr : loadInode dev i s = some (.error e, t)) : dev.Reports e := by
  cases hc : s.cached i with
  | true =>
    rw [loadInode, Code.bind_ok (rfl : (Code.get : K Sfs) s = _), if_pos hc] at hr
    cases hr
  | false =>
    rw [dinOf_inode, inode_eq_none.2 hc] at hl
    obtain ⟨r, u, hread, herr, -⟩ := readInode_run dev h hi hl
    rw [loadInode_uncached hc] at hr
    cases r with
    | ok m =>
      rw [Code.bind_ok hread] at hr
      cases hr
    | error e' =>
      cases (Code.bind_error hread).symm.trans hr
      exact herr e rfl

theorem slotOf_eq_some {k : ℕ} (h : s.slotOf i path = some k) :
    k < (s.dinOf i).blocks ∧ (s.entry i k).ino ≠ 0 := by
  rw [Sfs.slotOf] at h
  obtain ⟨hp, hm, -⟩ := List.find?_range_eq_some.1 h
  exact ⟨List.mem_range.1 hm, (of_decide_eq_true hp).1⟩

/-- `sfs_lookup_once` in a directory that is held. -/
theorem lookupOnce_spec (dev : Device) (hn : Named I s) (hh : Held I E s i t) (hi : i ∈ I)
    (ht : (s.dinOf i).type = sfsTypeDir) (hlen : path.length ≤ 255) :
    ∃ r u, lookupOnce dev i path t = some (r, u) ∧
      ((∃ k, s.slotOf i path = some k ∧ r = .ok (s.entry i k).ino ∧
          Gained I E t (s.entry i k).ino u) ∨
        (∃ e, r = .error e ∧ (s.slotOf i path = none ∧ e = .noEnt ∨ dev.Reports e)) ∧
          ∃ n, u = t.wait n) := by
  have hdir := hh.directory ht (hn.cap i hi ht) (hn.whole i hi ht)
  have hsearch : t.Reads dev (direntSearch dev i path) _ := direntSearch_reads hh.acct hdir hlen
  have hwhy : ∀ {e : Errno} {u : Sfs}, direntSearch dev i path t = some (.error e, u) →
      s.slotOf i path = none ∧ e = .noEnt ∨ dev.Reports e := fun hr => by
    rw [← hh.slotOf]
    exact direntSearch_error hh.acct hdir hr
  rw [hh.slotOf] at hsearch
  cases hslot : s.slotOf i path with
  | none =>
    rw [hslot] at hsearch hwhy
    obtain ⟨m, r, hrun, rfl | ⟨-, e, rfl⟩⟩ := hsearch
    · exact ⟨_, _, Code.bind_error hrun, .inr ⟨⟨_, rfl, hwhy hrun⟩, m, rfl⟩⟩
    · exact ⟨_, _, Code.bind_error hrun, .inr ⟨⟨e, rfl, hwhy hrun⟩, m, rfl⟩⟩
  | some k =>
    rw [hslot, Option.map_some, hh.entry] at hsearch
    rw [hslot] at hwhy
    obtain ⟨hlt, hk⟩ := slotOf_eq_some hslot
    have hchild := hn.entries i hi ht k hlt hk
    have hlinks : ∀ m, ((t.wait m).dinOf (s.entry i k).ino).nlinks ≠ 0 := fun m => by
      rw [(hh.wait m).dinOf]
      exact hn.links _ hchild
    obtain ⟨m, r, hrun, rfl | ⟨-, e, rfl⟩⟩ := hsearch
    · obtain ⟨r, u, hl, ⟨rfl, hg⟩ | ⟨-, ⟨e, rfl⟩, k', rfl⟩⟩ :=
        loadInode_gained dev (hh.wait m).acct hchild (hlinks m)
      · exact ⟨_, u, (Code.bind_ok hrun).trans ((Code.bind_ok hl).trans rfl),
          .inl ⟨k, rfl, rfl, hg.wait⟩⟩
      · exact ⟨_, _, (Code.bind_ok hrun).trans (Code.bind_error hl), .inr ⟨⟨e, rfl,
          .inr (loadInode_reports (hh.wait m).acct hchild (hlinks m) hl)⟩, m + k',
          Sfs.wait_wait _⟩⟩
    · exact ⟨_, _, Code.bind_error hrun, .inr ⟨⟨e, rfl, hwhy hrun⟩, m, rfl⟩⟩

/-- **`sfs_lookup`** takes the inode with the name. -/
theorem sfsLookup_spec (dev : Device) (h : Acct I E s) (hn : Named I s) (hc : s.cached i = true)
    (ht : (s.din i).type = sfsTypeDir) (hlen : path.length ≤ 255)
    (hp : path ≠ [] ∧ path.head? ≠ some chSlash) :
    ∃ r t, sfsLookup dev i path s = some (r, t) ∧
      ((∃ k, s.slotOf i path = some k ∧ r = .ok (s.entry i k).ino ∧
          Gained I E s (s.entry i k).ino t) ∨
        (∃ e, r = .error e ∧ (s.slotOf i path = none ∧ e = .noEnt ∨ dev.Reports e)) ∧
          Acct I E t ∧ s.Moves t s.inode) := by
  have hi := h.cached i hc
  have htype : (s.dinOf i).type = sfsTypeDir := by rwa [Acct.dinOf_of_cached hc]
  have hpos := hn.held i htype
  obtain ⟨t, hinc, hat, hmt⟩ := vopRefInc_run h hc
  have hh : Held I E s i t := ⟨hat, hmt⟩
  have hdir := hh.directory htype (hn.cap i hi htype) (hn.whole i hi htype)
  have hrun : ∀ {r u v}, lookupOnce dev i path t = some (r, u) →
      vopRefDec dev i u = some (.ok (), v) → sfsLookup dev i path s = some (r, v) := by
    intro r u v honce hdec
    rw [sfsLookup, Code.assert_bind hp, Code.bind_ok hinc,
      Code.bind_ok (rfl : (Code.get : K Sfs) t = _), if_neg (not_not.2 hdir.type)]
    cases r with
    | error e => exact (Code.attempt_bind honce).trans ((Code.bind_ok hdec).trans rfl)
    | ok j => exact (Code.attempt_bind honce).trans ((Code.bind_ok hdec).trans rfl)
  obtain ⟨r, u, honce, ⟨k, hslot, rfl, hg⟩ | ⟨⟨e, rfl, hwhy⟩, m, rfl⟩⟩ :=
    lookupOnce_spec dev hn hh hi htype hlen
  · obtain ⟨v, hdec, hg'⟩ : ∃ v, vopRefDec dev i u = some (.ok (), v) ∧ _ := hh.next dev hpos hg
    exact ⟨_, v, hrun honce hdec, .inl ⟨k, hslot, rfl, hg'⟩⟩
  · obtain ⟨v, hdec, hav, hmv⟩ : ∃ v, vopRefDec dev i (t.wait m) = some (.ok (), v) ∧ _ :=
      (hh.wait m).drop dev hpos
    exact ⟨_, v, hrun honce hdec, .inr ⟨⟨e, rfl, hwhy⟩, hav, hmv⟩⟩

/-- A name that is too long stops the kernel. -/
theorem sfsLookup_panics (hc : (s.din i).type = sfsTypeDir) (hlen : ¬path.length ≤ 255) :
    sfsLookup dev i path s = none := by
  have htype : ((s.setSin i fun sin => { sin with refCount := sin.refCount + 1 }).din i).type =
      sfsTypeDir := by
    rw [Sfs.din, Sfs.sin_setSin, if_pos rfl]
    exact hc
  unfold sfsLookup
  by_cases hp : path ≠ [] ∧ path.head? ≠ some chSlash
  · rw [Code.assert_bind hp, Code.bind_ok (rfl : vopRefInc i s = _),
      Code.bind_ok (rfl : (Code.get : K Sfs) _ = _), if_neg (not_not.2 htype)]
    refine Code.bind_none ?_
    have honce : lookupOnce dev i path (s.setSin i fun sin =>
        { sin with refCount := sin.refCount + 1 }) = none :=
      Code.bind_none (Code.bind_none (if_neg hlen))
    rw [Code.attempt, honce]
    rfl
  · exact Code.bind_none (if_neg hp)

/-- The directories are as they were. -/
theorem Held.named (h : Held I E s n t) (hn : Named I s)
    (hpos : ∀ sin, s.inode n = some sin → 0 < sin.refCount) : Named I t := by
  refine ⟨hn.root, ?_, ?_, ?_, ?_, ?_, ?_⟩
  · rw [h.dinOf]
    exact hn.root_type
  · intro i hi
    rw [h.dinOf]
    exact hn.links i hi
  · intro d hd
    rw [h.dinOf]
    exact hn.cap d hd
  · intro d hd
    rw [h.dinOf]
    simpa only [h.bmap] using hn.whole d hd
  · intro d hd
    rw [h.dinOf]
    simpa only [h.entry] using hn.entries d hd
  · intro d hd sin hsin
    rw [h.dinOf] at hd
    by_cases hdn : d = n
    · subst hdn
      cases h.inode_self.symm.trans hsin
      exact refCount_incr hpos
    · rw [h.inode_ne hdn] at hsin
      exact hn.held d hd sin hsin

end

/-! ## The state of a call -/

namespace Vfs

variable {F D : Type} [DecidableEq F] [DecidableEq D]

/-- The file systems are sound, and who holds an inode has a reference to it. -/
structure Ok (I : F → Finset ℕ) (E : F → Set ℕ) (s : Vfs F D) : Prop where
  acct : ∀ f, Acct (I f) (E f) (s.fs f)
  named : ∀ f, Named (I f) (s.fs f)
  bootfs : ∀ n, s.bootfs = some n →
    ∃ f, n = .file f sfsBlknRoot ∧ (s.fs f).cached sfsBlknRoot = true
  pwd : ∀ n, s.pwd = some n → ∃ f i, n = .file f i ∧ (s.fs f).cached i = true ∧
    ((s.fs f).din i).type = sfsTypeDir
  devices : ∀ d, 0 < s.devRefs d
  opens : ∀ n, 0 ≤ s.opens n ∧ s.opens n ≤ s.refs n

/-- `t` differs from `s` in the path and in a reference to a node. -/
def Took (I : F → Finset ℕ) (E : F → Set ℕ) (s t : Vfs F D) : Vnode F D → Prop
  | .file f i => ∃ u, Gained (I f) (E f) (s.fs f) i u ∧
    t = { s with fs := Function.update s.fs f u, path := t.path }
  | .device d => t = { s with
      devRefs := Function.update s.devRefs d (s.devRefs d + 1)
      path := t.path }

/-- `t` differs from `s` in the path and in the time. -/
structure Kept (I : F → Finset ℕ) (E : F → Set ℕ) (s t : Vfs F D) : Prop where
  eq : t = { s with fs := t.fs, path := t.path }
  acct : ∀ f, Acct (I f) (E f) (t.fs f)
  moves : ∀ f, (s.fs f).Moves (t.fs f) (s.fs f).inode

variable {dev : F → Device} {I : F → Finset ℕ} {E : F → Set ℕ} {s t u : Vfs F D}
  {n : Vnode F D} {f : F} {i : ℕ} {path : List UInt8}

theorem refs_update (s : Vfs F D) (f : F) (u : Sfs) (p : List UInt8) (g : F) (j : ℕ) :
    Vfs.refs { s with fs := Function.update s.fs f u, path := p } (.file g j) =
      if g = f then u.refs j else (s.fs g).refs j := by
  by_cases hg : g = f
  · subst hg
    simp [Vfs.refs]
  · simp [Vfs.refs, hg]

/-- **One reference more**, to the node. -/
theorem Took.refs (h : Took I E s t n) : t.refs = Function.update s.refs n (s.refs n + 1) := by
  funext m
  rw [Function.update_apply]
  cases n with
  | file f i =>
    obtain ⟨u, hg, ht⟩ := h
    rw [ht]
    cases m with
    | device d => rfl
    | file g j =>
      rw [refs_update]
      by_cases hgf : g = f
      · subst hgf
        simp [hg.refs, Vfs.refs]
      · simp [hgf, Vfs.refs]
  | device d =>
    rw [Took] at h
    rw [h]
    cases m with
    | file g j => simp [Vfs.refs]
    | device d' => simp [Vfs.refs, Function.update_apply]

theorem Took.opens (h : Took I E s t n) : t.opens = s.opens := by
  cases n with
  | file f i =>
    obtain ⟨u, -, ht⟩ := h
    rw [ht]
  | device d =>
    rw [Took] at h
    rw [h]

/-- **As many references as before.** -/
theorem Kept.refs (h : Kept I E s t) : t.refs = s.refs := by
  funext m
  rw [h.eq]
  cases m with
  | device d => rfl
  | file g j =>
    change (t.fs g).refs j = (s.fs g).refs j
    rw [(h.moves g).refs, Sfs.refs]

theorem Kept.opens (h : Kept I E s t) : t.opens = s.opens := by rw [h.eq]

/-! ## Counts -/

theorem onFs_run {α : Type} {x : K α} {r : Except Errno α} {u : Sfs}
    (h : x (s.fs f) = some (r, u)) :
    onFs f x s = some (r, { s with fs := Function.update s.fs f u }) := Code.on_run h

theorem inodeCheck_run (h : 0 ≤ s.opens n ∧ s.opens n ≤ s.refs n)
    (hlt : s.refs n < maxInodeCount) : inodeCheck n s = some (.ok (), s) := by
  rw [inodeCheck, Code.bind_ok (rfl : (Code.get : V F D _) s = _), Code.assert_bind ⟨h.2, h.1⟩]
  exact if_pos ⟨hlt, lt_of_le_of_lt h.2 hlt⟩

theorem inodeCheck_panics (hlt : ¬s.refs n < maxInodeCount) : inodeCheck n s = none := by
  rw [inodeCheck, Code.bind_ok (rfl : (Code.get : V F D _) s = _)]
  by_cases h : s.opens n ≤ s.refs n ∧ 0 ≤ s.opens n
  · rw [Code.assert_bind h]
    exact if_neg fun hc => hlt hc.1
  · exact Code.bind_none (if_neg h)

theorem vopRefDec_file {u : Sfs} (hc : s.refs (.file f i) = 1 → s.opens (.file f i) = 0)
    (h : Ucore.vopRefDec (dev f) i (s.fs f) = some (.ok (), u)) :
    vopRefDec dev (.file f i) s = some (.ok (), { s with fs := Function.update s.fs f u }) := by
  rw [vopRefDec, Code.bind_ok (rfl : (Code.get : V F D _) s = _), Code.assert_bind hc]
  exact onFs_run h

/-- A directory in memory is taken. -/
theorem vopRefInc_file (h : s.Ok I E) (hc : (s.fs f).cached i = true)
    (ht : ((s.fs f).din i).type = sfsTypeDir) :
    ∃ t, vopRefInc (.file f i) s = some (.ok (), t) ∧ Took I E s t (.file f i) ∧
      t.path = s.path := by
  obtain ⟨u, hu, ha, hm⟩ := vopRefInc_run (h.acct f) hc
  have hd : ((s.fs f).dinOf i).type = sfsTypeDir := by rwa [Acct.dinOf_of_cached hc]
  rw [← taken_eq_incr ((h.named f).held i hd)] at hm
  exact ⟨_, onFs_run hu, ⟨u, ⟨ha, hm⟩, rfl⟩, rfl⟩

end Vfs

end Ucore
