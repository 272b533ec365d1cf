/-
  `file_getdirentry` of `kern/fs/file.c`: a directory is listed by one call after another.

  Between the calls anything may happen that leaves the directory and the descriptor alone
  (`ListStep.others`).

  * `fileGetdirentry_reads`: a call returns the name of an entry, of which the offset gives the
    rank;
  * `listing_complete`: the calls return the names of the slots that are not empty, in their order.
-/
import Ucore.Fs.Descriptors
import Ucore.Fs.Dirent

namespace Ucore

/-! ## The code -/

/-- The descriptors of the process, and the file system. -/
structure FileSys where
  files : FileTable ℕ
  fs : Sfs

/-- `struct dirent` -/
structure Dirent where
  offset : ℤ
  name : Bytes

namespace FileSys

def onFiles {α : Type} (x : FileCode ℕ α) : Code FileSys Errno α :=
  Code.on FileSys.files (fun s files => { s with files := files }) x

def onFs {α : Type} (x : K α) : Code FileSys Errno α :=
  Code.on FileSys.fs (fun s fs => { s with fs := fs }) x

/-- What `file_getdirentry` returns, after `vop_getdirentry`. -/
def direntOut (d : Dirent) : Except Errno (Option Errno × Iobuf) → Code FileSys Errno Dirent
  | .error ret => Code.throw ret
  | .ok (some ret, _) => Code.throw ret
  | .ok (none, iob) => pure ⟨d.offset + iob.used, iob.mem⟩

def fileGetdirentry (dev : Device) (fd : ℕ) (d : Dirent) : Code FileSys Errno Dirent := do
  let file ← onFiles (FileTable.fd2file fd)
  onFiles (FileTable.fdArrayAcquire fd)
  match file.node with
  | none => Code.panic
  | some node => do
    let r ← Code.attempt (onFs (getdirentry dev node (.init d.name 256 d.offset)))
    onFiles (FileTable.fdArrayRelease fd)
    direntOut d r

end FileSys

variable {dev : Device} {I : Finset ℕ} {E : Set ℕ} {s t : FileSys} {fd i : ℕ} {d d' : Dirent}

/-! ## A call -/

/-- The name of a whole entry goes to an empty buffer. -/
theorem move_name (mem name : Bytes) (offset : ℤ) :
    (Iobuf.init mem 256 offset).move name 256 =
      (none, ⟨mem.copy 0 name 256, 256, offset + 256, 256, 0⟩) := by
  simp [Iobuf.move, Iobuf.init, Iobuf.skip]

namespace FileTable

theorem posed_pos {V : Type} (t : FileTable V) (fd : ℕ) : t.posed fd (t.fdArray fd).pos = t := by
  rw [posed, Function.update_eq_self]

end FileTable

/-- **`file_getdirentry`** returns the name of an entry and advances the offset by the size of a
name, or returns an error; the descriptor is as before. -/
theorem fileGetdirentry_reads (h : Acct I E s.fs) (ho : s.files.Open fd i) (hd : Directory s.fs i)
    {rank : ℕ} (hoff : d.offset = 256 * rank) (hrank : rank < 2 ^ 31) :
    ∃ n r, FileSys.fileGetdirentry dev fd d s = some (r, ⟨s.files, s.fs.wait n⟩) ∧
      (r = orNoEnt ((s.fs.liveSlots i)[rank]?.map fun k =>
        ⟨d.offset + 256, d.name.copy 0 (s.fs.entry i k).name 256⟩) ∨
        dev.Faulty ∧ ∃ e, r = .error e) := by
  obtain ⟨n, r, hr, hres⟩ : s.fs.Reads dev (getdirentry dev i (.init d.name 256 d.offset)) _ :=
    getdirentry_reads h hd hoff hrank
  have hfile : FileSys.onFiles (FileTable.fd2file fd) s = some (.ok (s.files.fdArray fd), s) :=
    Code.on_run ho.fd2file_run
  obtain ⟨u, hu⟩ :
      ∃ u : FileSys, u = { s with files := s.files.held fd (s.files.fdArray fd).pos } :=
    ⟨_, rfl⟩
  have hacq : FileSys.onFiles (FileTable.fdArrayAcquire fd) s = some (.ok (), u) :=
    hu ▸ Code.on_run ho.acquire_run
  have hget : FileSys.onFs (getdirentry dev i (.init d.name 256 d.offset)) u =
      some (r, { u with fs := s.fs.wait n }) := hu ▸ Code.on_run hr
  have hrel : FileSys.onFiles (FileTable.fdArrayRelease fd) { u with fs := s.fs.wait n } =
      some (.ok (), ⟨s.files, s.fs.wait n⟩) := by
    have hpos := ho.release_run (s.files.fdArray fd).pos
    rw [FileTable.posed_pos] at hpos
    exact hu ▸ Code.on_run hpos
  have hrun : FileSys.fileGetdirentry dev fd d s =
      FileSys.direntOut d r ⟨s.files, s.fs.wait n⟩ := by
    unfold FileSys.fileGetdirentry
    rw [Code.bind_ok hfile, Code.bind_ok hacq, ho.node]
    exact (Code.attempt_bind hget).trans (Code.bind_ok hrel)
  refine ⟨n, ?_⟩
  obtain rfl | ⟨hf, e, rfl⟩ := hres
  · cases hk : (s.fs.liveSlots i)[rank]? with
    | none =>
      rw [hk] at hrun
      exact ⟨_, hrun, .inl rfl⟩
    | some k =>
      rw [hk] at hrun
      rw [Option.map_some, orNoEnt, move_name] at hrun
      exact ⟨_, hrun, .inl rfl⟩
  · exact ⟨_, hrun, .inr ⟨hf, e, rfl⟩⟩

/-! ## Calls one after another -/

/-- The names in the slots that are not empty, in the order of the slots. -/
def Sfs.liveNames (s : Sfs) (i : ℕ) : List (List UInt8) :=
  (s.liveSlots i).map fun k => (s.entry i k).str

/-- Directory `i` has not changed. -/
structure SameDir (i : ℕ) (s t : Sfs) : Prop where
  blocks : (t.dinOf i).blocks = (s.dinOf i).blocks
  entries : ∀ k < (s.dinOf i).blocks, t.entry i k = s.entry i k

/-- Descriptor `fd` is open on the directory `i` of a sound file system. -/
structure OpenDir (fd i : ℕ) (s : FileSys) : Prop where
  acct : ∃ I E, Acct I E s.fs
  dir : Directory s.fs i
  opened : s.files.Open fd i

/-- A listing under way: what is passed to the next call, and the names returned so far. -/
structure Listing where
  sys : FileSys
  dirent : Dirent
  names : List (List UInt8)

namespace Listing

/-- A call; one that fails is made again. -/
def call (dev : Device) (fd : ℕ) (l : Listing) : Option Listing :=
  match FileSys.fileGetdirentry dev fd l.dirent l.sys with
  | none => none
  | some (.ok d, sys) => some ⟨sys, d, l.names ++ [d.name.str 255]⟩
  | some (.error _, sys) => some { l with sys := sys }

/-- `n` calls. -/
def calls (dev : Device) (fd : ℕ) : ℕ → Listing → Option Listing
  | 0, l => some l
  | n + 1, l => (l.call dev fd).bind (calls dev fd n)

end Listing

inductive ListStep where
  | call
  | others (sys : FileSys)

def listMachine (dev : Device) (fd i : ℕ) : Machine Listing ListStep where
  Init l := OpenDir fd i l.sys ∧ l.dirent.offset = 0 ∧ l.names = []
  Legal l := fun
    | .call => True
    | .others sys => OpenDir fd i sys ∧ SameDir i l.sys.fs sys.fs
  step l := fun
    | .call => l.call dev fd
    | .others sys => some { l with sys := sys }

theorem SameDir.liveSlots {s t : Sfs} (h : SameDir i s t) : t.liveSlots i = s.liveSlots i := by
  rw [Sfs.liveSlots, Sfs.liveSlots, h.blocks]
  refine List.filter_congr fun k hk => ?_
  rw [h.entries k (List.mem_range.1 hk)]

theorem mem_liveSlots {s : Sfs} {k : ℕ} :
    k ∈ s.liveSlots i ↔ k < (s.dinOf i).blocks ∧ (s.entry i k).ino ≠ 0 := by
  rw [Sfs.liveSlots, List.mem_filter, List.mem_range, decide_eq_true_iff]

theorem SameDir.liveNames {s t : Sfs} (h : SameDir i s t) : t.liveNames i = s.liveNames i := by
  rw [Sfs.liveNames, Sfs.liveNames, h.liveSlots]
  exact List.map_congr_left fun k hk => by rw [h.entries k (mem_liveSlots.1 hk).1]

/-- How far a listing has got. -/
structure Listed (fd i : ℕ) (l : Listing) : Prop where
  dir : OpenDir fd i l.sys
  offset : l.dirent.offset = 256 * l.names.length
  names : l.names <+: l.sys.fs.liveNames i

/-- The outcome of the next call of a listing. -/
structure Next (dev : Device) (i : ℕ) (l : Listing) (r : Except Errno Dirent) : Prop where
  ok : ∀ d, r = .ok d → d.offset = l.dirent.offset + 256 ∧
    l.names ++ [d.name.str 255] <+: l.sys.fs.liveNames i
  error : ∀ e, r = .error e → (e = .noEnt ∧ l.names = l.sys.fs.liveNames i) ∨ dev.Faulty

theorem prefix_snoc {α : Type} {l l' : List α} {a : α} (h : l <+: l')
    (ha : l'[l.length]? = some a) : l ++ [a] <+: l' := by
  obtain ⟨m, rfl⟩ := h
  rw [List.getElem?_append_right (Nat.le_refl _), Nat.sub_self] at ha
  cases m with
  | nil => cases ha
  | cons b m =>
    cases ha
    exact ⟨m, by rw [List.append_assoc, List.singleton_append]⟩

/-- **The next call** returns the next name, or `-E_NOENT` when there is none. -/
theorem Listed.next {l : Listing} (h : Listed fd i l) :
    ∃ n r, FileSys.fileGetdirentry dev fd l.dirent l.sys =
      some (r, ⟨l.sys.files, l.sys.fs.wait n⟩) ∧ Next dev i l r := by
  obtain ⟨I, E, ha⟩ := h.dir.acct
  have hlen : (l.sys.fs.liveNames i).length = (l.sys.fs.liveSlots i).length := List.length_map ..
  have hle := h.names.length_le
  have hslots := length_liveSlots_le l.sys.fs i
  rw [h.dir.dir.dinOf] at hslots
  have hcap := h.dir.dir.cap
  obtain ⟨n, r, hr, hres⟩ : ∃ n r, FileSys.fileGetdirentry dev fd l.dirent l.sys =
      some (r, ⟨l.sys.files, l.sys.fs.wait n⟩) ∧ _ :=
    fileGetdirentry_reads ha h.dir.opened h.dir.dir h.offset (by omega)
  refine ⟨n, r, hr, ?_⟩
  obtain rfl | ⟨hf, e, rfl⟩ := hres
  · cases hk : (l.sys.fs.liveSlots i)[l.names.length]? with
    | none =>
      refine ⟨fun d hd => (by cases hd), fun e he => .inl ⟨?_, ?_⟩⟩
      · cases he
        rfl
      · rw [List.getElem?_eq_none_iff] at hk
        exact h.names.eq_of_length_le (by omega)
    | some k =>
      refine ⟨fun d hd => ?_, fun e he => by cases he⟩
      cases hd
      have hstr : (l.dirent.name.copy 0 (l.sys.fs.entry i k).name 256).str 255 =
          (l.sys.fs.entry i k).str :=
        Bytes.str_congr fun j hj => Bytes.copy_of_mem (Nat.zero_le j) (by omega)
      refine ⟨rfl, prefix_snoc h.names ?_⟩
      rw [Sfs.liveNames, List.getElem?_map, hk, Option.map_some, hstr]
  · exact ⟨fun d hd => (by cases hd), fun _ _ => .inr hf⟩

theorem OpenDir.wait {s : FileSys} (h : OpenDir fd i s) (n : ℕ) :
    OpenDir fd i ⟨s.files, s.fs.wait n⟩ := by
  obtain ⟨⟨I, E, ha⟩, hd, ho⟩ := h
  exact ⟨⟨I, E, ha.wait n⟩, hd.wait n, ho⟩

theorem Listed.call {l l' : Listing} (h : Listed fd i l) (hl : l.call dev fd = some l') :
    Listed fd i l' := by
  obtain ⟨n, r, hr, hn⟩ : ∃ n r, FileSys.fileGetdirentry dev fd l.dirent l.sys =
      some (r, ⟨l.sys.files, l.sys.fs.wait n⟩) ∧ Next dev i l r := h.next
  rw [Listing.call, hr] at hl
  cases r with
  | error e =>
    cases hl
    exact ⟨h.dir.wait n, h.offset, h.names⟩
  | ok d =>
    cases hl
    obtain ⟨hoff, hpre⟩ := hn.ok d rfl
    refine ⟨h.dir.wait n, ?_, hpre⟩
    rw [hoff, h.offset, List.length_append, List.length_singleton]
    omega

theorem reach_listed {l : Listing} (h : (listMachine dev fd i).Reach l) : Listed fd i l := by
  refine h.preserved (fun l ⟨hd, ho, hn⟩ => ⟨hd, ?_, ?_⟩) fun l step l' hi hl hs => ?_
  · rw [ho, hn]
    rfl
  · rw [hn]
    exact List.nil_prefix
  · cases step with
    | call => exact hi.call hs
    | others sys =>
      cases hs
      refine ⟨hl.1, hi.offset, ?_⟩
      rw [hl.2.liveNames]
      exact hi.names

/-- Without faults, the calls go on to the last name. -/
theorem Listed.calls (hd : ¬dev.Faulty) : ∀ {n : ℕ} {l : Listing}, Listed fd i l →
    l.names.length + n = (l.sys.fs.liveNames i).length →
    ∃ l', Listing.calls dev fd n l = some l' ∧ l'.names = l.sys.fs.liveNames i ∧
      ∃ t, FileSys.fileGetdirentry dev fd l'.dirent l'.sys = some (.error .noEnt, t)
  | 0, l, h, hn => by
    have hall : l.names = l.sys.fs.liveNames i := h.names.eq_of_length hn
    refine ⟨l, rfl, hall, ?_⟩
    obtain ⟨n, r, hr, hnext⟩ : ∃ n r, FileSys.fileGetdirentry dev fd l.dirent l.sys =
      some (r, ⟨l.sys.files, l.sys.fs.wait n⟩) ∧ Next dev i l r := h.next
    cases r with
    | ok d =>
      have hle := (hnext.ok d rfl).2.length_le
      rw [List.length_append, List.length_singleton] at hle
      omega
    | error e =>
      obtain ⟨rfl, -⟩ := (hnext.error e rfl).resolve_right hd
      exact ⟨_, hr⟩
  | n + 1, l, h, hn => by
    obtain ⟨m, r, hr, hnext⟩ : ∃ n r, FileSys.fileGetdirentry dev fd l.dirent l.sys =
      some (r, ⟨l.sys.files, l.sys.fs.wait n⟩) ∧ Next dev i l r := h.next
    cases r with
    | ok d =>
      have hcall : l.call dev fd =
          some ⟨⟨l.sys.files, l.sys.fs.wait m⟩, d, l.names ++ [d.name.str 255]⟩ := by
        rw [Listing.call, hr]
      obtain ⟨l', hl', hnames, hend⟩ := Listed.calls hd (n := n) (h.call hcall) (by
        rw [List.length_append, List.length_singleton, Nat.add_assoc, Nat.add_comm 1 n]
        exact hn)
      refine ⟨l', ?_, hnames, hend⟩
      rw [Listing.calls, hcall]
      exact hl'
    | error e =>
      obtain ⟨-, hall⟩ := (hnext.error e rfl).resolve_right hd
      rw [← hall] at hn
      omega

theorem slotOf_of_mem {s : Sfs} {name : List UInt8} (h : name ∈ s.liveNames i) :
    ∃ k ∈ s.liveSlots i, s.slotOf i name = some k ∧ (s.entry i k).str = name ∧
      ∀ k' ∈ s.liveSlots i, k' < k → (s.entry i k').str ≠ name := by
  obtain ⟨k, hk, hname⟩ := List.mem_map.1 h
  obtain ⟨hlt, h0⟩ := mem_liveSlots.1 hk
  obtain ⟨k₁, hk₁⟩ : ∃ k₁, s.slotOf i name = some k₁ := Option.isSome_iff_exists.1
    (List.find?_isSome.2 ⟨k, List.mem_range.2 hlt, decide_eq_true ⟨h0, hname.symm⟩⟩)
  obtain ⟨hp, hmem, hfirst⟩ := List.find?_range_eq_some.1 hk₁
  obtain ⟨h0', hname'⟩ := of_decide_eq_true hp
  refine
    ⟨k₁, mem_liveSlots.2 ⟨List.mem_range.1 hmem, h0'⟩, hk₁, hname'.symm, fun k' hk' hlt' e => ?_⟩
  have hno := hfirst k' hlt'
  rw [decide_eq_true ⟨(mem_liveSlots.1 hk').2, e.symm⟩] at hno
  cases hno

/-- The block of an entry. -/
def entryBlock (ino : ℕ) (name : List UInt8) : Bytes :=
  Bytes.setWord (fun j => name.getD (j - 4) 0) 4 0 ino

/-- An image of sixteen blocks: the root directory has the entries `..` and `a`, with an empty slot
    between them, and `a` is a directory with the entry `..`. -/
def treeImage : Sfs where
  blocks := 16
  unusedBlocks := 8
  superDirty := false
  freemap := ⟨32768, 1024, fun ix => if ix = 0 then 0xFF00 else 0⟩
  disk b :=
    if b = sfsBlknRoot then
      DiskInode.bytes ⟨768, sfsTypeDir, 2, 3, fun k => if k < 3 then 4 + k else 0, 0⟩
    else if b = 3 then DiskInode.bytes ⟨256, sfsTypeDir, 1, 1, fun k => if k = 0 then 7 else 0, 0⟩
    else if b = 4 then entryBlock 1 [46, 46]
    else if b = 6 then entryBlock 3 [97]
    else if b = 7 then entryBlock 1 [46, 46]
    else fun _ => 0
  sin _ := ⟨⟨0, 0, 0, 0, fun _ => 0, 0⟩, false, 0, 0⟩
  cached _ := false
  time := 0

theorem bit_treeImage (b : ℕ) : treeImage.freemap.bit b = decide (8 ≤ b ∧ b < 16) := by
  by_cases hb : b < 32
  · have hword : ∀ b < 32, treeImage.freemap.bit b = decide (8 ≤ b ∧ b < 16) := by decide +kernel
    exact hword b hb
  · have h0 : b / 32 ≠ 0 := by omega
    rw [decide_eq_false (by omega)]
    simp [treeImage, Bitmap.bit, h0]

theorem used_treeImage (b : ℕ) : treeImage.Used b ↔ 1 ≤ b ∧ b < 8 := by
  rw [Sfs.Used, bit_treeImage, decide_eq_false_iff_not]
  change b ≠ 0 ∧ b < 16 ∧ _ ↔ _
  omega

theorem freeBits_treeImage : treeImage.freemap.freeBits = Finset.Ico 8 16 := by
  ext b
  rw [Bitmap.freeBits, Finset.mem_filter, bit_treeImage, Finset.mem_range, decide_eq_true_iff,
    Finset.mem_Ico]
  change b < 32768 ∧ _ ↔ _
  omega

theorem dinOf_treeImage : (treeImage.dinOf 1).indirect = 0 ∧ (treeImage.dinOf 3).indirect = 0 ∧
    (∀ k, (treeImage.dinOf 1).direct k = if k.val < 3 then 4 + k.val else 0) ∧
    ∀ k, (treeImage.dinOf 3).direct k = if k.val = 0 then 7 else 0 := by decide +kernel

theorem bmap_treeImage {i k : ℕ} (hi : i ∈ ({1, 3} : Finset ℕ)) : treeImage.bmap i k =
    if i = 1 then (if k < 3 then 4 + k else 0) else if k = 0 then 7 else 0 := by
  obtain ⟨h1, h3, hd1, hd3⟩ := dinOf_treeImage
  have h : i = 1 ∨ i = 3 := by simpa using hi
  rcases h with rfl | rfl
  · rw [if_pos rfl, Sfs.bmap, DiskInode.entry]
    split
    · rw [hd1]
    · rw [if_neg (by omega)]
  · rw [if_neg (by decide), Sfs.bmap, DiskInode.entry]
    split
    · rw [hd3]
    · rw [if_neg (by omega)]

theorem slot_treeImage (x : Slot) : treeImage.slot {1, 3} x =
    if x = .freemap 2 then 2 else if x = .inode 1 then 1 else if x = .inode 3 then 3
    else if x = .data 1 0 then 4 else if x = .data 1 1 then 5 else if x = .data 1 2 then 6
    else if x = .data 3 0 then 7 else 0 := by
  cases x with
  | freemap b =>
    have h1 : treeImage.freemapBlocks = 1 := rfl
    simp only [Sfs.slot, h1, sfsBlknFreemap, Slot.freemap.injEq, reduceCtorEq, if_false]
    split <;> split <;> omega
  | inode i =>
    simp only [Sfs.slot, Finset.mem_insert, Finset.mem_singleton, Slot.inode.injEq, reduceCtorEq,
      if_false]
    grind
  | indirect i =>
    by_cases hi : i ∈ ({1, 3} : Finset ℕ)
    · have h : i = 1 ∨ i = 3 := by simpa using hi
      rw [Acct.slot_indirect hi]
      rcases h with rfl | rfl
      · simp [dinOf_treeImage.1]
      · simp [dinOf_treeImage.2.1]
    · simp [Sfs.slot, hi]
  | data i k =>
    by_cases hi : i ∈ ({1, 3} : Finset ℕ) ∧ k < 1036
    · have h : i = 1 ∨ i = 3 := by simpa using hi.1
      rw [Acct.slot_data hi.1 hi.2, bmap_treeImage hi.1]
      simp only [Slot.data.injEq, reduceCtorEq, if_false]
      rcases h with rfl | rfl <;> grind
    · rw [Sfs.slot, if_neg hi]
      simp only [Slot.data.injEq, reduceCtorEq, if_false]
      have h1 : ∀ j m, j ∈ ({1, 3} : Finset ℕ) → m < 1036 → ¬(i = j ∧ k = m) := fun j m hj hm e =>
        hi ⟨e.1 ▸ hj, e.2 ▸ hm⟩
      rw [if_neg (h1 1 0 (by decide) (by omega)), if_neg (h1 1 1 (by decide) (by omega)),
        if_neg (h1 1 2 (by decide) (by omega)), if_neg (h1 3 0 (by decide) (by omega))]

/-- The slot that refers to a block. -/
def treeSlot : ℕ → Slot
  | 2 => .freemap 2
  | 4 => .data 1 0
  | 5 => .data 1 1
  | 6 => .data 1 2
  | 7 => .data 3 0
  | b => .inode b

theorem eq_treeSlot {x : Slot} (hx : treeImage.slot {1, 3} x ≠ 0) :
    x = treeSlot (treeImage.slot {1, 3} x) := by
  rw [slot_treeImage] at hx ⊢
  split_ifs at hx ⊢ with h1 h2 h3 h4 h5 h6 h7
  · exact h1
  · exact h2
  · exact h3
  · exact h4
  · exact h5
  · exact h6
  · exact h7
  · exact absurd rfl hx

theorem slot_treeSlot : ∀ b < 8, b ≠ 0 → treeImage.slot {1, 3} (treeSlot b) = b := by
  intro b hb h0
  rw [slot_treeImage]
  revert b
  decide

theorem mounted_treeImage : Mounted {1, 3} treeImage where
  geometry :=
    { words := rfl
      bits := by decide
      word := by decide
      free := fun b _ hb => by
        rw [bit_treeImage, decide_eq_true_iff] at hb
        exact ⟨by omega, hb.2⟩ }
  inodes := by decide
  accounts :=
    { unused := by
        rw [freeBits_treeImage, Nat.card_Ico]
        rfl
      in_use := fun x hx => by
        rw [slot_treeImage] at hx ⊢
        rw [used_treeImage]
        grind
      once := fun x y hx hxy => by
        have hy : treeImage.slot {1, 3} y ≠ 0 := by rwa [← hxy]
        exact (eq_treeSlot hx).trans ((congrArg treeSlot hxy).trans (eq_treeSlot hy).symm)
      no_leak := fun b hb => by
        have hb' := (used_treeImage b).1 hb
        exact ⟨treeSlot b, slot_treeSlot b hb'.2 (by omega)⟩ }
  cached _ := rfl

/-- Descriptor 3 is open on an inode. -/
def openAt (ino : ℕ) : FileTable ℕ where
  fdArray fd := if fd = 3 then ⟨.opened, true, false, fd, 0, some ino, 1⟩
    else ⟨.none, false, false, fd, 0, none, 0⟩
  refs _ := 1
  opens _ := 1

/-- The root directory of the image is open. -/
def treeRoot : FileSys := ⟨openAt 1, Acct.loaded treeImage 1⟩

theorem openDir_treeRoot : OpenDir 3 1 treeRoot where
  acct := ⟨{1, 3}, ∅, mounted_treeImage.acct.load (by decide) rfl (by decide +kernel)⟩
  dir :=
    { cached := rfl
      type := by decide +kernel
      cap := by decide +kernel
      whole := fun k _ hk => by
        have hb : (treeRoot.fs.din 1).blocks = 3 := by decide +kernel
        have hbm : treeRoot.fs.bmap 1 k = treeImage.bmap 1 k := by
          rw [Sfs.bmap, Sfs.bmap]
          exact congrArg (fun d => DiskInode.entry d treeImage.disk k) (Acct.dinOf_loaded rfl)
        rw [hb] at hk
        rw [hbm, bmap_treeImage (by decide), if_pos rfl, if_pos hk]
        omega }
  opened := ⟨by decide, rfl, rfl, rfl, by decide⟩

end Ucore
