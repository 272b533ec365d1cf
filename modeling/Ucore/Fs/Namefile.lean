/-
  `sfs_namefile`: the path of a directory, which is built from its end.

  The references to an inode are those of its inode in memory, so a node is named by the number of
  its inode.  `memmove` and `memcpy` are `Bytes.copy`.

  * `DirTree`, `PathTo`: a tree of directories, and the names on the way to one of them;
  * `NameBuf.Ends`: what the buffer ends with, between two rounds;
  * `namefile_path`: the path if it fits, `-E_NO_MEM` otherwise, and the references are as before.
-/
import Ucore.Fs.InodeRefs
import Ucore.Fs.Listing

namespace Ucore

/-! ## The code -/

/-- `ptr` and `resid` of `sfs_namefile`, with the memory. -/
structure NameBuf where
  mem : Bytes
  ptr : ℕ
  resid : ℕ

/-- The name of an entry goes in front, with a slash behind it. -/
def NameBuf.put (buf : NameBuf) (entry : DiskEntry) : NameBuf :=
  let alen := entry.str.length + 1
  let ptr := buf.ptr - alen
  ⟨(buf.mem.copy ptr entry.name (alen - 1)).fill (ptr + (alen - 1)) 47 1, ptr, buf.resid - alen⟩

def dotdot : List UInt8 := [46, 46]

section
variable (dev : Device)

/-- The loop of `sfs_namefile`; each round takes a byte of the buffer, or is the last one. -/
def namefileLoop : ℕ → ℕ → NameBuf → K (Option Errno × NameBuf)
  | 0, _, _ => Code.panic
  | fuel + 1, node, buf => do
    match ← Code.attempt (lookupOnce dev node dotdot) with
    | .error ret => do
      vopRefDec dev node
      pure (some ret, buf)
    | .ok parent => do
      vopRefDec dev node
      if node = parent then do
        vopRefDec dev node
        pure (none, buf)
      else do
        let s ← Code.get
        Code.assert (node ≠ parent ∧ (s.din parent).type = sfsTypeDir)
        match ← Code.attempt (direntFindino dev parent node) with
        | .error ret => do
          vopRefDec dev parent
          pure (some ret, buf)
        | .ok entry =>
          if buf.resid < entry.str.length + 1 then do
            vopRefDec dev parent
            pure (some .noMem, buf)
          else namefileLoop fuel parent (buf.put entry)

/-- The end of `sfs_namefile`. -/
def namefileOut (iob : Iobuf) : Option Errno × NameBuf → K (Option Errno × Iobuf)
  | (some ret, buf) => pure (some ret, { iob with mem := buf.mem })
  | (none, buf) => do
    let alen := iob.resid - buf.resid - 2
    let ptr := iob.base + 1
    let mem := buf.mem.copy ptr (buf.mem.from' buf.ptr) alen
    let mem := (mem.fill (ptr - 1) 47 1).fill (ptr + alen) 0 1
    Code.assert (alen ≤ iob.resid)
    pure (none, { iob with mem := mem }.skip alen)

/-- `sfs_namefile`; the buffer is returned with the result. -/
def namefile (node : ℕ) (iob : Iobuf) : K (Option Errno × Iobuf) :=
  if iob.resid ≤ 2 then pure (some .noMem, iob)
  else do
    match ← Code.attempt (kmalloc dev) with
    | .error _ => pure (some .noMem, iob)
    | .ok () => do
      vopRefInc node
      let out ← namefileLoop dev iob.resid node ⟨iob.mem, iob.base + iob.resid, iob.resid - 2⟩
      namefileOut iob out

end

/-! ## Directory trees -/

/-- The directories `D` are a tree: each has one entry `..`, for its parent, and is named by one
    entry of its parent. -/
structure DirTree (s : Sfs) (D : Finset ℕ) (root : ℕ) (parent : ℕ → ℕ) : Prop where
  root_mem : root ∈ D
  root_parent : parent root = root
  parent_mem : ∀ d ∈ D, parent d ∈ D
  reach : ∀ d ∈ D, ∃ n, parent^[n] d = root
  links : ∀ d ∈ D, (s.dinOf d).nlinks ≠ 0
  type : ∀ d ∈ D, (s.dinOf d).type = sfsTypeDir
  cap : ∀ d ∈ D, (s.dinOf d).blocks ≤ 1036
  whole : ∀ d ∈ D, ∀ k < (s.dinOf d).blocks, s.bmap d k ≠ 0
  dotdot : ∀ d ∈ D, ∃ k < (s.dinOf d).blocks,
    ((s.entry d k).ino = parent d ∧ (s.entry d k).str = dotdot) ∧
      ∀ k' < (s.dinOf d).blocks, (s.entry d k').ino ≠ 0 → (s.entry d k').str = dotdot → k' = k
  named : ∀ d ∈ D, d ≠ root → ∃ k < (s.dinOf (parent d)).blocks,
    (s.entry (parent d) k).ino = d ∧
      ∀ k' < (s.dinOf (parent d)).blocks, (s.entry (parent d) k').ino = d → k' = k

/-- The names on the way from the root to a directory. -/
inductive PathTo (s : Sfs) (root : ℕ) (parent : ℕ → ℕ) : ℕ → List (List UInt8) → Prop where
  | root : PathTo s root parent root []
  | child {d k : ℕ} {names : List (List UInt8)} : d ≠ root → PathTo s root parent (parent d) names →
      k < (s.dinOf (parent d)).blocks → (s.entry (parent d) k).ino = d →
      PathTo s root parent d (names ++ [(s.entry (parent d) k).str])

/-- Each name with a slash behind it. -/
def render (names : List (List UInt8)) : List UInt8 := names.flatMap (· ++ [47])

variable {dev : Device} {I : Finset ℕ} {E : Set ℕ} {s t u : Sfs} {D : Finset ℕ} {root n i k : ℕ}
  {parent : ℕ → ℕ} {names : List (List UInt8)}

/-! ## A search in the tree -/

theorem find?_range_unique {m : ℕ} {p : ℕ → Bool} (hk : k < m) (hp : p k = true)
    (h : ∀ k' < m, p k' = true → k' = k) : (List.range m).find? p = some k := by
  refine List.find?_range_eq_some.2 ⟨hp, List.mem_range.2 hk, fun j hj => ?_⟩
  by_contra hj'
  have hj2 : p j = true := by simpa using hj'
  have := h j (hj.trans hk) hj2
  omega

namespace DirTree

theorem slotOf_dotdot (ht : DirTree s D root parent) (h0 : 0 ∉ D) (hn : n ∈ D) :
    ∃ k, s.slotOf n Ucore.dotdot = some k ∧ (s.entry n k).ino = parent n := by
  obtain ⟨k, hk, ⟨hino, hstr⟩, huniq⟩ := ht.dotdot n hn
  have hne : (s.entry n k).ino ≠ 0 := fun h => h0 (by
    have hp := ht.parent_mem n hn
    rwa [← hino, h] at hp)
  refine ⟨k, find?_range_unique hk (decide_eq_true ⟨hne, hstr.symm⟩) fun k' hk' hp => ?_, hino⟩
  obtain ⟨hne', hstr'⟩ := of_decide_eq_true hp
  exact huniq k' hk' hne' hstr'.symm

theorem slotOfIno_child (ht : DirTree s D root parent) (hn : n ∈ D) (hr : n ≠ root)
    (hk : k < (s.dinOf (parent n)).blocks) (hino : (s.entry (parent n) k).ino = n) :
    s.slotOfIno (parent n) n = some k := by
  obtain ⟨k₁, -, -, huniq⟩ := ht.named n hn hr
  refine find?_range_unique hk (decide_eq_true hino) fun k' hk' hp => ?_
  exact (huniq k' hk' (of_decide_eq_true hp)).trans (huniq k hk hino).symm

theorem directory (ht : DirTree s D root parent) (h : Held I E s n t) (hn : n ∈ D) :
    Directory t n :=
  h.directory (ht.type n hn) (ht.cap n hn) (ht.whole n hn)

theorem parent_ne (ht : DirTree s D root parent) (hn : n ∈ D) (hr : n ≠ root) : parent n ≠ n := by
  intro h
  obtain ⟨m, hm⟩ := ht.reach n hn
  rw [Function.iterate_fixed h] at hm
  exact hr hm

theorem path_exists (ht : DirTree s D root parent) : ∀ {m n : ℕ}, n ∈ D → parent^[m] n = root →
    ∃ names, PathTo s root parent n names
  | 0, _, _, h => ⟨[], by cases h; exact .root⟩
  | m + 1, n, hn, h => by
    by_cases hr : n = root
    · subst hr
      exact ⟨[], .root⟩
    · rw [Function.iterate_succ_apply] at h
      obtain ⟨names, hp⟩ := path_exists ht (ht.parent_mem n hn) h
      obtain ⟨k, hk, hino, -⟩ := ht.named n hn hr
      exact ⟨_, .child hr hp hk hino⟩

end DirTree

/-! ## The references -/

/-- A directory tree of which the inodes in memory are referenced. -/
structure Rooted (I D : Finset ℕ) (s : Sfs) (root : ℕ) (parent : ℕ → ℕ) : Prop where
  tree : DirTree s D root parent
  inodes : D ⊆ I
  held : ∀ d ∈ D, ∀ sin, s.inode d = some sin → 0 < sin.refCount

namespace Held

/-- A node that is held is referenced, like the others. -/
theorem held (h : Held I E s n t) (hr : Rooted I D s root parent) (hn : n ∈ D) {d : ℕ}
    (hd : d ∈ D) :
    ∀ sin, t.inode d = some sin → 0 < sin.refCount := by
  intro sin hsin
  by_cases hdn : d = n
  · subst hdn
    rw [h.inode_self] at hsin
    cases hsin
    exact refCount_incr (hr.held d hd)
  · rw [h.inode_ne hdn] at hsin
    exact hr.held d hd sin hsin

/-- **`sfs_lookup_once`** takes a reference to the parent. -/
theorem lookup_parent (dev : Device) (h : Held I E s n t) (hr : Rooted I D s root parent)
    (hn : n ∈ D) : ∃ r u, lookupOnce dev n Ucore.dotdot t = some (r, u) ∧
      ((r = .ok (parent n) ∧ Gained I E t (parent n) u) ∨
      dev.Faulty ∧ (∃ e, r = .error e) ∧ ∃ k, u = t.wait k) := by
  have hp := hr.tree.parent_mem n hn
  have h0 : 0 ∉ D := fun h0 => h.acct.nonzero (hr.inodes h0)
  obtain ⟨k, hslot, hino⟩ := hr.tree.slotOf_dotdot h0 hn
  have hslot' : t.slotOf n Ucore.dotdot = some k := (h.slotOf n _).trans hslot
  have hsearch : t.Reads dev (direntSearch dev n Ucore.dotdot) _ :=
    direntSearch_reads h.acct (hr.tree.directory h hn) (by decide)
  rw [hslot', Option.map_some, h.entry, hino] at hsearch
  obtain ⟨m, r, hrun, rfl | ⟨hf, e, rfl⟩⟩ := hsearch
  · have hload : ∃ r u, loadInode dev (parent n) (t.wait m) = some (r, u) ∧ _ :=
      loadInode_gained dev (h.wait m).acct (hr.inodes hp)
        (by rw [(h.wait m).dinOf]; exact hr.tree.links _ hp)
    obtain ⟨r, u, hl, ⟨rfl, hg⟩ | ⟨hf, ⟨e, rfl⟩, k, rfl⟩⟩ := hload
    · exact ⟨_, u, (Code.bind_ok hrun).trans (Code.bind_ok hl), .inl ⟨rfl, hg.acct,
        ((Sfs.Moves.refl t).wait m).trans hg.moves⟩⟩
    · exact ⟨_, _, (Code.bind_ok hrun).trans (Code.bind_error hl), .inr ⟨hf, ⟨e, rfl⟩, m + k,
        Sfs.wait_wait _⟩⟩
  · exact ⟨_, _, Code.bind_error hrun, .inr ⟨hf, ⟨e, rfl⟩, m, rfl⟩⟩

end Held

/-! ## The buffer -/

namespace NameBuf

/-- The buffer ends with `text`, and there is room for two characters more than `resid`. -/
structure Ends (iob : Iobuf) (text : List UInt8) (buf : NameBuf) : Prop where
  ptr : buf.ptr + text.length = iob.base + iob.resid
  resid : buf.resid + text.length + 2 = iob.resid
  text : ∀ j c, text[j]? = some c → buf.mem (buf.ptr + j) = c
  frame : ∀ j, j < iob.base ∨ iob.base + iob.resid ≤ j → buf.mem j = iob.mem j

variable {iob : Iobuf} {buf : NameBuf} {text : List UInt8} {entry : DiskEntry}

theorem Ends.put (h : buf.Ends iob text) (hfit : entry.str.length + 1 ≤ buf.resid) :
    (buf.put entry).Ends iob (entry.str ++ [47] ++ text) := by
  have hptr := h.ptr
  have hresid := h.resid
  refine ⟨?_, ?_, fun j c hj => ?_, fun j hj => ?_⟩
  · simp only [NameBuf.put, List.length_append, List.length_singleton]
    omega
  · simp only [NameBuf.put, List.length_append, List.length_singleton]
    omega
  · simp only [NameBuf.put, Nat.add_sub_cancel]
    obtain hlt | rfl | hgt := Nat.lt_trichotomy j entry.str.length
    · rw [List.append_assoc, List.getElem?_append_left hlt] at hj
      rw [Bytes.fill, Bytes.copy_of_not_mem (.inl (by omega)),
        Bytes.copy_of_mem (by omega) (by omega), Nat.add_sub_cancel_left]
      exact Bytes.getElem?_str hj
    · rw [List.append_assoc, List.getElem?_append_right (Nat.le_refl _), Nat.sub_self] at hj
      rw [Bytes.fill, Bytes.copy_of_mem (by omega) (by omega)]
      exact Option.some.inj hj
    · rw [List.getElem?_append_right (by simp; omega), List.length_append,
        List.length_singleton] at hj
      rw [Bytes.fill, Bytes.copy_of_not_mem (.inr (by omega)),
        Bytes.copy_of_not_mem (.inr (by omega)), ← h.text _ c hj]
      congr 1
      omega
  · simp only [NameBuf.put, Nat.add_sub_cancel]
    rw [Bytes.fill, Bytes.copy_of_not_mem (by omega), Bytes.copy_of_not_mem (by omega)]
    exact h.frame j hj

end NameBuf

/-- What `sfs_namefile` leaves for a path: the path with a NUL, or `-E_NO_MEM` if it does not fit,
    or the error of a request. -/
def NameOut (dev : Device) (iob : Iobuf) (path : List UInt8) (ret : Option Errno) (iob' : Iobuf) :
    Prop :=
  (ret = none ∧ path.length + 1 ≤ iob.resid ∧
    iob' = { iob with mem := iob'.mem }.skip (path.length - 1) ∧
    ∀ j c, (path ++ [0])[j]? = some c → iob'.mem (iob.base + j) = c) ∨
  (ret = some .noMem ∧ iob.resid < path.length + 1) ∨
  (dev.Faulty ∧ ∃ e, ret = some e)

/-- The path is moved to the front. -/
theorem namefileOut_run (dev : Device) {iob : Iobuf} {buf : NameBuf} {text : List UInt8}
    (h : buf.Ends iob text) (s : Sfs) : ∃ iob', namefileOut iob (none, buf) s =
      some (.ok (none, iob'), s) ∧ NameOut dev iob (47 :: text) none iob' ∧
      ∀ j, j < iob.base ∨ iob.base + iob.resid ≤ j → iob'.mem j = iob.mem j := by
  have hptr := h.ptr
  have hresid := h.resid
  have halen : iob.resid - buf.resid - 2 = text.length := by omega
  obtain ⟨mem, hmem⟩ : ∃ mem, mem =
      ((buf.mem.copy (iob.base + 1) (buf.mem.from' buf.ptr) text.length).fill
        (iob.base + 1 - 1) 47 1).fill (iob.base + 1 + text.length) 0 1 := ⟨_, rfl⟩
  refine ⟨{ iob with mem := mem }.skip text.length, ?_, .inl ⟨rfl, ?_, rfl, fun j c hj => ?_⟩,
    fun j hj => ?_⟩
  · rw [namefileOut, halen, hmem]
    exact Code.assert_bind (by omega)
  · rw [List.length_cons]
    omega
  · change mem (iob.base + j) = c
    rw [hmem]
    cases j with
    | zero =>
      rw [Bytes.fill, Bytes.copy_of_not_mem (.inl (by omega)), Bytes.fill,
        Bytes.copy_of_mem (by omega) (by omega)]
      exact Option.some.inj hj
    | succ j =>
      rw [List.cons_append, List.getElem?_cons_succ] at hj
      obtain hlt | hge := Nat.lt_or_ge j text.length
      · rw [List.getElem?_append_left hlt] at hj
        rw [Bytes.fill, Bytes.copy_of_not_mem (.inl (by omega)), Bytes.fill,
          Bytes.copy_of_not_mem (.inr (by omega)), Bytes.copy_of_mem (by omega) (by omega),
          Bytes.from', ← h.text j c hj]
        congr 1
        omega
      · rw [List.getElem?_append_right hge] at hj
        have hj' := (List.getElem?_eq_some_iff.1 hj).1
        rw [List.length_singleton] at hj'
        rw [Bytes.fill, Bytes.copy_of_mem (by omega) (by omega)]
        have h0 : j - text.length = 0 := by omega
        rw [h0] at hj
        exact Option.some.inj hj
  · change mem j = iob.mem j
    rw [hmem, Bytes.fill, Bytes.copy_of_not_mem (by omega), Bytes.fill,
      Bytes.copy_of_not_mem (by omega), Bytes.copy_of_not_mem (by omega)]
    exact h.frame j hj

/-! ## The walk -/

theorem render_snoc (names : List (List UInt8)) (name : List UInt8) :
    render (names ++ [name]) = render names ++ (name ++ [47]) := by
  rw [render, List.flatMap_append, List.flatMap_singleton, render]

/-- `sfs_dirent_findino_nolock` finds the entry that names a child. -/
theorem Held.findino_child (h : Held I E s (parent n) t) (ht : DirTree s D root parent) (hn : n ∈ D)
    (hr : n ≠ root) (hk : k < (s.dinOf (parent n)).blocks) (hino : (s.entry (parent n) k).ino = n) :
    t.Reads dev (direntFindino dev (parent n) n) (.ok (s.entry (parent n) k)) := by
  have hfind : t.Reads dev (direntFindino dev (parent n) n) _ :=
    direntFindino_reads h.acct (ht.directory h (ht.parent_mem n hn))
  have hslot : t.slotOfIno (parent n) n = some k := by
    rw [← ht.slotOfIno_child hn hr hk hino, Sfs.slotOfIno, Sfs.slotOfIno, h.dinOf]
    simp only [h.entry]
  rwa [hslot, Option.map_some, h.entry] at hfind

/-- **The loop of `sfs_namefile`** puts the names in front, from the last to the first, and drops
what it takes. -/
theorem namefileLoop_walk (dev : Device) (hr : Rooted I D s root parent) {iob : Iobuf}
    (hp : PathTo s root parent n names) :
      ∀ {fuel : ℕ} {buf : NameBuf} {text : List UInt8} {t : Sfs},
    n ∈ D → Held I E s n t → buf.Ends iob text → buf.resid < fuel →
    ∃ ret buf' u, namefileLoop dev fuel n buf t = some (.ok (ret, buf'), u) ∧ Acct I E u ∧
      s.Moves u s.inode ∧
      (∀ j, j < iob.base ∨ iob.base + iob.resid ≤ j → buf'.mem j = iob.mem j) ∧
      ((ret = none ∧ buf'.Ends iob (render names ++ text)) ∨
        (ret = some .noMem ∧ buf.resid < (render names).length) ∨
        (dev.Faulty ∧ ∃ e, ret = some e)) := by
  induction hp with
  | root =>
    rintro (_ | fuel) buf text t hn h hb hfuel
    · omega
    obtain ⟨r, u, hlook, ⟨rfl, hg⟩ | ⟨hf, ⟨e, rfl⟩, k, rfl⟩⟩ := h.lookup_parent dev hr hn
    · -- the parent is the node, which has been taken twice
      rw [hr.tree.root_parent] at hlook hg
      obtain ⟨v, hv, hg'⟩ : ∃ v, vopRefDec dev root u = some (.ok (), v) ∧ _ :=
        h.next dev (hr.held root hn) hg
      have hheld := hg'.held (hr.held root hn)
      obtain ⟨w, hw, haw, hmw⟩ : ∃ w, vopRefDec dev root v = some (.ok (), w) ∧ _ :=
        hheld.drop dev (hr.held root hn)
      refine ⟨none, buf, w, ?_, haw, hmw, hb.frame, .inl ⟨rfl, hb⟩⟩
      rw [namefileLoop]
      refine (Code.attempt_bind hlook).trans ((Code.bind_ok hv).trans ?_)
      rw [if_pos rfl]
      exact Code.bind_ok hw
    · obtain ⟨v, hv, hav, hmv⟩ : ∃ v, vopRefDec dev root (t.wait k) = some (.ok (), v) ∧ _ :=
        (h.wait k).drop dev (hr.held root hn)
      refine ⟨some e, buf, v, ?_, hav, hmv, hb.frame, .inr (.inr ⟨hf, e, rfl⟩)⟩
      rw [namefileLoop]
      exact (Code.attempt_bind hlook).trans (Code.bind_ok hv)
  | @child n k names hnr hp hk hino ih =>
    rintro (_ | fuel) buf text t hn h hb hfuel
    · omega
    have hne := hr.tree.parent_ne hn hnr
    have hpm := hr.tree.parent_mem n hn
    obtain ⟨r, u, hlook, ⟨rfl, hg⟩ | ⟨hf, ⟨e, rfl⟩, k', rfl⟩⟩ := h.lookup_parent dev hr hn
    · obtain ⟨v, hv, hg'⟩ : ∃ v, vopRefDec dev n u = some (.ok (), v) ∧ _ :=
        h.next dev (hr.held n hn) hg
      have hheld := hg'.held (hr.held _ hpm)
      have htype : (v.din (parent n)).type = sfsTypeDir :=
        (hr.tree.directory hheld hpm).type
      have hstart : namefileLoop dev (fuel + 1) n buf t =
          (Code.attempt (direntFindino dev (parent n) n) >>= fun
            | .error ret => do
              vopRefDec dev (parent n)
              pure (some ret, buf)
            | .ok entry =>
              if buf.resid < entry.str.length + 1 then do
                vopRefDec dev (parent n)
                pure (some .noMem, buf)
              else namefileLoop dev fuel (parent n) (buf.put entry) : K _) v := by
        rw [namefileLoop]
        refine (Code.attempt_bind hlook).trans ((Code.bind_ok hv).trans ?_)
        rw [if_neg (Ne.symm hne)]
        exact Code.assert_bind ⟨Ne.symm hne, htype⟩
      have hlen : (render (names ++ [(s.entry (parent n) k).str])).length =
          (render names).length + ((s.entry (parent n) k).str.length + 1) := by
        rw [render_snoc, List.length_append, List.length_append, List.length_singleton]
      obtain ⟨m, r, hfind, rfl | ⟨hf, e, rfl⟩⟩ : v.Reads dev (direntFindino dev (parent n) n) _ :=
        hheld.findino_child hr.tree hn hnr hk hino
      · by_cases hfit : buf.resid < (s.entry (parent n) k).str.length + 1
        · obtain ⟨w, hw, haw, hmw⟩ :
              ∃ w, vopRefDec dev (parent n) (v.wait m) = some (.ok (), w) ∧ _ :=
            (hheld.wait m).drop dev (hr.held _ hpm)
          refine ⟨some .noMem, buf, w, ?_, haw, hmw, hb.frame, .inr (.inl ⟨rfl, by omega⟩)⟩
          refine hstart.trans ((Code.attempt_bind hfind).trans ?_)
          dsimp only
          rw [if_pos hfit]
          exact Code.bind_ok hw
        · have hput : (buf.put (s.entry (parent n) k)).Ends iob _ := hb.put (by omega)
          have hfuel' : (buf.put (s.entry (parent n) k)).resid < fuel := by
            simp only [NameBuf.put]
            omega
          obtain ⟨ret, buf', w, hrun, haw, hmw, hframe, hout⟩ := ih hpm (hheld.wait m) hput hfuel'
          refine ⟨ret, buf', w, ?_, haw, hmw, hframe, ?_⟩
          · refine hstart.trans ((Code.attempt_bind hfind).trans ?_)
            dsimp only
            rw [if_neg hfit]
            exact hrun
          · rw [hlen, render_snoc, List.append_assoc]
            refine hout.imp_right (Or.imp_left fun ⟨hret, hlt⟩ => ⟨hret, ?_⟩)
            simp only [NameBuf.put] at hlt
            omega
      · obtain ⟨w, hw, haw, hmw⟩ :
            ∃ w, vopRefDec dev (parent n) (v.wait m) = some (.ok (), w) ∧ _ :=
          (hheld.wait m).drop dev (hr.held _ hpm)
        refine ⟨some e, buf, w, ?_, haw, hmw, hb.frame, .inr (.inr ⟨hf, e, rfl⟩)⟩
        exact hstart.trans ((Code.attempt_bind hfind).trans (Code.bind_ok hw))
    · obtain ⟨v, hv, hav, hmv⟩ : ∃ v, vopRefDec dev n (t.wait k') = some (.ok (), v) ∧ _ :=
        (h.wait k').drop dev (hr.held n hn)
      refine ⟨some e, buf, v, ?_, hav, hmv, hb.frame, .inr (.inr ⟨hf, e, rfl⟩)⟩
      rw [namefileLoop]
      exact (Code.attempt_bind hlook).trans (Code.bind_ok hv)

/-- The directory `a` of the image is in memory. -/
def treeLeaf : Sfs := Acct.loaded treeImage 3

theorem dirTree_treeLeaf : DirTree treeLeaf {1, 3} 1 (fun _ => 1) where
  root_mem := by decide
  root_parent := rfl
  parent_mem := by decide
  reach := fun _ _ => ⟨1, rfl⟩
  links := by decide +kernel
  type := by decide +kernel
  cap := by decide +kernel
  whole := by decide +kernel
  dotdot := by decide +kernel
  named := by decide +kernel

theorem rooted_treeLeaf : Rooted {1, 3} {1, 3} treeLeaf 1 (fun _ => 1) where
  tree := dirTree_treeLeaf
  inodes := Finset.Subset.refl _
  held := by
    intro d _ sin hsin
    obtain ⟨hc, rfl⟩ := inode_eq_some.1 hsin
    have hd : d = 3 := by
      by_contra hd
      simp [treeLeaf, Acct.loaded, treeImage, hd] at hc
    subst hd
    decide +kernel

end Ucore
