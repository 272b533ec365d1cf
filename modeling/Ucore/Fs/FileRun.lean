/-
  A mounted sfs, call after call.

  `blockMachine dev I` takes any calls on inodes in memory, `I` being the inodes of the image and
  `dev` saying which requests fail.  `fileMachine` takes those only that meet `Fits`.

  * `accounts_kept`: if no block fails to be cleared, the accounts are right after every run;
  * `no_panic`: after a run of calls that meet `Fits`, a call that meets it does not panic.
-/
import Ucore.Fs.BlockMapRuns
import Ucore.Fs.FileOps
import Ucore.Lib.Machine

namespace Ucore

/-! ## Calls -/

/-- A call on an inode; `hold` and `release` are `vop_ref_inc` and `vop_ref_dec`. -/
inductive FileOp where
  | loadInode (ino : ℕ)
  | reclaim (ino : ℕ)
  | hold (ino : ℕ)
  | release (ino : ℕ)
  | bmapLoad (ino index : ℕ)
  | bmapTruncate (ino : ℕ)
  | io (ino : ℕ) (buf : Bytes) (offset : ℤ) (alen : ℕ) (write : Bool)
  | truncfile (ino : ℕ) (len : ℤ)
  | tryseek (ino : ℕ) (pos : ℤ)
  | fsync (ino : ℕ)

namespace FileOp

def ino : FileOp → ℕ
  | loadInode i | reclaim i | hold i | release i | bmapLoad i _ | bmapTruncate i | io i _ _ _ _
  | truncfile i _ | tryseek i _ | fsync i => i

/-- The state after the call; `none` if it panics. -/
def step (dev : Device) (s : Sfs) : FileOp → Option Sfs
  | .loadInode i => (Ucore.loadInode dev i s).map Prod.snd
  | .reclaim i => (Ucore.reclaim dev i s).map Prod.snd
  | .hold i => some (s.setSin i fun sin => { sin with refCount := sin.refCount + 1 })
  | .release i => some (s.setSin i fun sin => { sin with refCount := sin.refCount - 1 })
  | .bmapLoad i k => (Ucore.bmapLoad dev i k s).map Prod.snd
  | .bmapTruncate i => (Ucore.bmapTruncate dev i s).map Prod.snd
  | .io i buf offset alen write => (ioNolock dev i buf offset alen write s).map Prod.snd
  | .truncfile i len => (Ucore.truncfile dev i len s).map Prod.snd
  | .tryseek i pos => (Ucore.tryseek dev i pos s).map Prod.snd
  | .fsync i => (Ucore.fsync dev i s).map Prod.snd

/-- The inode is in memory, or is one of the image that is to be read. -/
def Legal (I : Finset ℕ) (s : Sfs) : FileOp → Prop
  | .loadInode i => i ∈ I
  | op => s.cached op.ino = true

end FileOp

/-! ## Accounts -/

/-- The number of free blocks is right, every block a slot refers to is in use and no other slot
    refers to it, and every block in use is referred to by a slot. -/
structure Accounts (I : Finset ℕ) (s : Sfs) : Prop where
  unused : s.unusedBlocks = s.freemap.freeBits.card
  in_use : ∀ x, s.slot I x ≠ 0 → s.Used (s.slot I x)
  once : ∀ x y, s.slot I x ≠ 0 → s.slot I x = s.slot I y → x = y
  no_leak : ∀ b, s.Used b → ∃ x, s.slot I x = b

/-- A file system as it is mounted: no inode is in memory, and the image is sound. -/
structure Mounted (I : Finset ℕ) (s : Sfs) : Prop where
  geometry : s.Geometry
  inodes : 0 ∉ I
  accounts : Accounts I s
  cached : ∀ i, s.cached i = false

def blockMachine (dev : Device) (I : Finset ℕ) : Machine Sfs FileOp where
  Init := Mounted I
  Legal := FileOp.Legal I
  step := FileOp.step dev

variable {dev : Device} {I : Finset ℕ} {E : Set ℕ} {s t : Sfs} {i k b : ℕ}

theorem Mounted.acct (h : Mounted I s) : Acct I ∅ s where
  geo := h.geometry
  nonzero := h.inodes
  count := h.accounts.unused
  ledger :=
    { zero := fun h0 => h0.1 rfl
      marked := h.accounts.in_use
      once := h.accounts.once
      lent_marked := fun b hb => absurd hb (Set.notMem_empty b)
      lent_free := fun b hb => absurd hb (Set.notMem_empty b)
      covered := fun b hb => .inr (h.accounts.no_leak b hb) }
  cached i hi := by rw [h.cached i] at hi; cases hi
  clean i hi := by rw [h.cached i] at hi; cases hi
  links i hi := by rw [h.cached i] at hi; cases hi

theorem Acct.accounts (h : Acct I ∅ s) : Accounts I s :=
  ⟨h.count, h.ledger.marked, h.ledger.once, fun b hb =>
    (h.ledger.covered b hb).resolve_left (Set.notMem_empty b)⟩

theorem map_snd_eq_some {α : Type} {x : K α} (h : (x s).map Prod.snd = some t) :
    ∃ r, x s = some (r, t) := by
  obtain ⟨⟨r, t'⟩, h₁, rfl⟩ := Option.map_eq_some_iff.1 h
  exact ⟨r, h₁⟩

/-- **One call.** -/
theorem step_kept (h : Acct I E s) {op : FileOp} (hl : op.Legal I s)
    (hs : op.step dev s = some t) : Kept dev I E s t := by
  cases op with
  | loadInode i =>
    obtain ⟨r, hr⟩ := map_snd_eq_some hs
    exact loadInode_kept h hl hr
  | reclaim i =>
    obtain ⟨r, hr⟩ := map_snd_eq_some hs
    exact reclaim_kept h hl hr
  | hold i =>
    cases hs
    exact h.setSin_kept hl rfl rfl rfl rfl id
  | release i =>
    cases hs
    exact h.setSin_kept hl rfl rfl rfl rfl id
  | bmapLoad i k =>
    obtain ⟨r, hr⟩ := map_snd_eq_some hs
    exact (bmapLoad_kept h hl hr).1
  | bmapTruncate i =>
    obtain ⟨r, hr⟩ := map_snd_eq_some hs
    exact (bmapTruncate_kept h hl hr).1
  | io i buf offset alen write =>
    obtain ⟨r, hr⟩ := map_snd_eq_some hs
    exact (ioNolock_kept h hl hr).1
  | truncfile i len =>
    obtain ⟨r, hr⟩ := map_snd_eq_some hs
    exact (truncfile_kept h hl hr).1
  | tryseek i pos =>
    obtain ⟨r, hr⟩ := map_snd_eq_some hs
    exact (tryseek_kept h hl hr).1
  | fsync i =>
    obtain ⟨r, hr⟩ := map_snd_eq_some hs
    exact (fsync_spec h hl hr).1

theorem reach_acct (hd : dev.Clears) (h : (blockMachine dev I).Reach s) : Acct I ∅ s := by
  refine h.preserved (fun s hs => Mounted.acct hs) fun s op t ha hl hs => ?_
  obtain ⟨E', -, hE, ha'⟩ := (step_kept ha hl hs).acct
  exact hE hd ▸ ha'

/-- **Every block in use is referred to once** after any calls, if those writes succeed with which
    `sfs_clear_block` clears new blocks. -/
theorem accounts_kept (hd : dev.Clears) (h : (blockMachine dev I).Reach s) : Accounts I s :=
  (reach_acct hd h).accounts

/-! ## An image with an empty file -/

/-- A device on which nothing fails. -/
def soundDevice : Device := ⟨fun _ _ => none⟩

/-- An image of eight blocks: the root directory, the free map and an empty file; four blocks are
    free. -/
def emptyFileImage : Sfs where
  blocks := 8
  unusedBlocks := 4
  superDirty := false
  freemap := ⟨32768, 1024, fun ix => if ix = 0 then 0xF0 else 0⟩
  disk b :=
    if b = sfsBlknRoot then DiskInode.bytes ⟨0, sfsTypeDir, 1, 0, fun _ => 0, 0⟩
    else if b = 3 then DiskInode.bytes ⟨0, sfsTypeFile, 1, 0, fun _ => 0, 0⟩
    else fun _ => 0
  sin _ := ⟨⟨0, 0, 0, 0, fun _ => 0, 0⟩, false, 0, 0⟩
  cached _ := false
  time := 0

/-- The image with `n` free blocks. -/
def spareImage (n : ℕ) : Sfs :=
  { emptyFileImage with
    blocks := 4 + n
    unusedBlocks := n
    freemap := ⟨32768, 1024, fun ix => if ix = 0 then BitVec.ofNat 32 ((2 ^ n - 1) * 16) else 0⟩ }

section
variable {n b : ℕ}

theorem bit_spareImage (hn : n ≤ 28) :
    (spareImage n).freemap.bit b = decide (4 ≤ b ∧ b < 4 + n) := by
  have hword : ∀ n ≤ 28, ∀ b < 32, (BitVec.ofNat 32 ((2 ^ n - 1) * 16)).getLsbD b =
      decide (4 ≤ b ∧ b < 4 + n) := by decide +kernel
  by_cases hb : b < 32
  · have h0 : b / 32 = 0 := by omega
    have h1 : b % 32 = b := by omega
    rw [← hword n hn b hb, Bitmap.bit, h0, h1]
    rfl
  · have h0 : b / 32 ≠ 0 := by omega
    rw [decide_eq_false (by omega)]
    simp [spareImage, Bitmap.bit, h0]

theorem used_spareImage (hn : n ≤ 28) : (spareImage n).Used b ↔ b = 1 ∨ b = 2 ∨ b = 3 := by
  rw [Sfs.Used, bit_spareImage hn, decide_eq_false_iff_not]
  change b ≠ 0 ∧ b < 4 + n ∧ _ ↔ _
  omega

theorem freeBits_spareImage (hn : n ≤ 28) :
    (spareImage n).freemap.freeBits = Finset.Ico 4 (4 + n) := by
  ext b
  rw [Bitmap.freeBits, Finset.mem_filter, bit_spareImage hn, Finset.mem_range, decide_eq_true_iff,
    Finset.mem_Ico]
  change b < 32768 ∧ _ ↔ _
  omega

theorem dinOf_spareImage {i : ℕ} (hi : i ∈ ({1, 3} : Finset ℕ)) :
    ((spareImage n).dinOf i).direct = (fun _ => 0) ∧ ((spareImage n).dinOf i).indirect = 0 ∧
      ((spareImage n).dinOf i).blocks = 0 := by
  have h : i = 1 ∨ i = 3 := by simpa using hi
  change (emptyFileImage.dinOf i).direct = _ ∧ (emptyFileImage.dinOf i).indirect = 0 ∧
    (emptyFileImage.dinOf i).blocks = 0
  rcases h with rfl | rfl <;> exact ⟨by decide +kernel, by decide +kernel, by decide +kernel⟩

theorem slot_spareImage (hn : n ≤ 28) (x : Slot) : (spareImage n).slot {1, 3} x =
    if x = .freemap 2 then 2 else if x = .inode 1 then 1 else if x = .inode 3 then 3 else 0 := by
  cases x with
  | freemap b =>
    have h1 : (spareImage n).freemapBlocks = 1 := by
      change (4 + n + 32767) / 32768 = 1
      omega
    simp only [Sfs.slot, h1, sfsBlknFreemap, Slot.freemap.injEq, reduceCtorEq, if_false]
    split <;> split <;> omega
  | inode i =>
    simp only [Sfs.slot, Finset.mem_insert, Finset.mem_singleton, Slot.inode.injEq, reduceCtorEq,
      if_false]
    grind
  | indirect i =>
    by_cases hi : i ∈ ({1, 3} : Finset ℕ)
    · simp [Acct.slot_indirect hi, (dinOf_spareImage hi).2.1]
    · simp [Sfs.slot, hi]
  | data i k =>
    by_cases hi : i ∈ ({1, 3} : Finset ℕ) ∧ k < 1036
    · obtain ⟨h1, h2, -⟩ := dinOf_spareImage (n := n) hi.1
      simp [Acct.slot_data hi.1 hi.2, Sfs.bmap, DiskInode.entry, h1, h2]
    · rw [Sfs.slot, if_neg hi]
      simp

theorem mounted_spareImage (hn : n ≤ 28) : Mounted {1, 3} (spareImage n) where
  geometry :=
    { words := rfl
      bits := by
        change 4 + n ≤ 32768
        omega
      word := by
        change 4 + n ≤ 2 ^ 32
        omega
      free := fun b _ hb => by
        rw [bit_spareImage hn, decide_eq_true_iff] at hb
        exact ⟨by omega, hb.2⟩ }
  inodes := by decide
  accounts :=
    { unused := by
        rw [freeBits_spareImage hn, Nat.card_Ico]
        change n = _
        omega
      in_use := fun x hx => by
        rw [slot_spareImage hn] at hx ⊢
        rw [used_spareImage hn]
        grind
      once := fun x y hx hxy => by
        rw [slot_spareImage hn] at hx hxy
        rw [slot_spareImage hn] at hxy
        grind
      no_leak := fun b hb => by
        rcases (used_spareImage hn).1 hb with rfl | rfl | rfl
        · exact ⟨.inode 1, by rw [slot_spareImage hn]; rfl⟩
        · exact ⟨.freemap 2, by rw [slot_spareImage hn]; rfl⟩
        · exact ⟨.inode 3, by rw [slot_spareImage hn]; rfl⟩ }
  cached _ := rfl

theorem whole_spareImage : Whole {1, 3} (spareImage n) := by
  intro i hi k _ hb
  rw [(dinOf_spareImage hi).2.2] at hb
  exact absurd hb (Nat.not_lt_zero k)

end

theorem mounted_emptyFileImage : Mounted {1, 3} emptyFileImage :=
  mounted_spareImage (n := 4) (by decide)

theorem whole_emptyFileImage : Whole {1, 3} emptyFileImage := whole_spareImage (n := 4)

instance (I : Finset ℕ) (s : Sfs) : DecidablePred (FileOp.Legal I s)
  | .loadInode i => inferInstanceAs (Decidable (i ∈ I))
  | .reclaim i | .hold i | .release i | .bmapLoad i _ | .bmapTruncate i | .io i _ _ _ _
  | .truncfile i _ | .tryseek i _ | .fsync i => inferInstanceAs (Decidable (s.cached i = true))

instance (dev : Device) (I : Finset ℕ) (s : Sfs) (op : FileOp) :
    Decidable ((blockMachine dev I).Legal s op) :=
  inferInstanceAs (Decidable (FileOp.Legal I s op))

/-- No write of `sfs_clear_block` succeeds. -/
def stuckDevice : Device := ⟨fun _ req => if req = .clear then some .inval else none⟩

/-- A block that cannot be cleared is lost: nothing refers to it, and it stays in use. -/
theorem unclearable_block_leaks :
    ∃ s, (blockMachine stuckDevice {1, 3}).Reach s ∧ ¬Accounts {1, 3} s := by
  have hrun : (((blockMachine stuckDevice {1, 3}).run emptyFileImage
      [.loadInode 3, .io 3 (fun _ => 7) 0 1 true]).bind fun s =>
        if (s.blocks = 8 ∧ s.freemap.bit 4 = false) ∧
          ((∀ k, (s.dinOf 1).direct k = 0) ∧ (s.dinOf 1).indirect = 0) ∧
            (∀ k, (s.dinOf 3).direct k = 0) ∧ (s.dinOf 3).indirect = 0
          then some () else none) = some () := by decide +kernel
  obtain ⟨s, hs, hif⟩ := Option.bind_eq_some_iff.1 hrun
  split at hif
  · rename_i hc
    obtain ⟨⟨hb, hbit⟩, hd1, hd3⟩ := hc
    have hd : ∀ i ∈ ({1, 3} : Finset ℕ),
        (∀ k, (s.dinOf i).direct k = 0) ∧ (s.dinOf i).indirect = 0 := fun i hi => by
      have h : i = 1 ∨ i = 3 := by simpa using hi
      rcases h with rfl | rfl
      · exact hd1
      · exact hd3
    refine ⟨s, (Machine.Reach.init mounted_emptyFileImage).run hs, fun ha => ?_⟩
    obtain ⟨x, hx⟩ := ha.no_leak 4 ⟨by decide, by omega, hbit⟩
    cases x with
    | freemap b =>
      rw [Sfs.slot, Sfs.freemapBlocks, hb, show (8 + 32767) / 32768 = 1 from rfl] at hx
      unfold sfsBlknFreemap at hx
      by_cases hb2 : 2 ≤ b ∧ b < 2 + 1
      · rw [if_pos hb2] at hx
        omega
      · rw [if_neg hb2] at hx
        cases hx
    | inode i =>
      simp only [Sfs.slot, Finset.mem_insert, Finset.mem_singleton] at hx
      split at hx <;> omega
    | indirect i =>
      by_cases hi : i ∈ ({1, 3} : Finset ℕ)
      · rw [Acct.slot_indirect hi, (hd i hi).2] at hx
        cases hx
      · rw [Sfs.slot, if_neg hi] at hx
        cases hx
    | data i k =>
      by_cases hi : i ∈ ({1, 3} : Finset ℕ) ∧ k < 1036
      · rw [Acct.slot_data hi.1 hi.2, Sfs.bmap, DiskInode.entry, (hd i hi.1).2] at hx
        split at hx
        · rw [(hd i hi.1).1] at hx
          cases hx
        · rw [if_pos rfl] at hx
          cases hx
      · rw [Sfs.slot, if_neg hi] at hx
        cases hx
  · cases hif

/-- A file is read into memory, written, made shorter and released. -/
theorem accounts_kept_write : ∃ s, (blockMachine soundDevice {1, 3}).Reach s ∧
    s.freemap.bit 4 = false ∧ Accounts {1, 3} s := by
  have hrun : (((blockMachine soundDevice {1, 3}).run emptyFileImage
      [.loadInode 3, .io 3 (fun _ => 7) 0 4097 true, .truncfile 3 10, .release 3, .reclaim 3]).bind
        fun s => if s.freemap.bit 4 = false ∧ s.freemap.bit 5 = true ∧ s.cached 3 = false
          then some () else none) = some () := by decide +kernel
  obtain ⟨s, hs, hif⟩ := Option.bind_eq_some_iff.1 hrun
  split at hif
  · rename_i hc
    have hr := (Machine.Reach.init mounted_emptyFileImage).run hs
    exact ⟨s, hr, hc.1, accounts_kept (fun _ => rfl) hr⟩
  · cases hif


/-! ## No panic -/

/-- The free blocks do not suffice to fill the block map from entry `k` on. -/
def Starved (s : Sfs) (i k : ℕ) : Prop := s.unusedBlocks < s.need i k 1036

/-- `sfs_io_nolock` finds its blocks: the range that is left after the checks starts in or right
    behind the blocks of the file, and ends in the block map (or the free blocks run out before). -/
def FitsIo (s : Sfs) (i : ℕ) (offset : ℤ) (alen : ℕ) (write : Bool) : Prop :=
  0 ≤ offset → offset < sfsMaxFileSize → offset + alen < 2 ^ 63 → 0 < alen →
    (write = false → offset < (s.din i).size) →
      offset.toNat / 4096 ≤ (s.din i).blocks ∧
        (min (offset.toNat + alen)
          (if write then sfsMaxFileSize else (s.din i).size) ≤ 1036 * 4096 ∨
          Starved s i (offset.toNat / 4096))

/-- `sfs_truncfile` finds the number of blocks it expects; or it is asked for one that fits in the
    block map, or that is not above that of the file (or the free blocks run out before). -/
def FitsTrunc (s : Sfs) (i : ℕ) (len : ℤ) : Prop :=
  0 ≤ len → len ≤ sfsMaxFileSize →
    if (s.din i).size = len then (len.toNat + 4095) / 4096 = (s.din i).blocks
    else (len.toNat + 4095) / 4096 ≤ max 1036 (s.din i).blocks ∨ Starved s i (s.din i).blocks

/-- The calls on files that meet the condition. -/
def Fits (s : Sfs) : FileOp → Prop
  | .io i _ offset alen write => FitsIo s i offset alen write
  | .truncfile i len => FitsTrunc s i len
  | .tryseek i pos => pos < sfsMaxFileSize → (s.din i).size < pos → FitsTrunc s i pos
  | _ => True

/-- A call on an open regular file, with arguments of their types. -/
def FileCall (s : Sfs) : FileOp → Prop
  | .io i _ _ alen _ => s.cached i = true ∧ (s.din i).type ≠ sfsTypeDir ∧ alen < 2 ^ 64
  | .truncfile i _ | .tryseek i _ => s.cached i = true
  | _ => False

def fileMachine (dev : Device) (I : Finset ℕ) : Machine Sfs FileOp where
  Init s := Mounted I s ∧ Whole I s
  Legal s op := op.Legal I s ∧ Fits s op
  step := FileOp.step dev

instance (s : Sfs) (i k : ℕ) : Decidable (Starved s i k) :=
  inferInstanceAs (Decidable (s.unusedBlocks < s.need i k 1036))

instance (s : Sfs) (i : ℕ) (offset : ℤ) (alen : ℕ) (write : Bool) :
    Decidable (FitsIo s i offset alen write) := by
  unfold FitsIo
  infer_instance

instance (s : Sfs) (i : ℕ) (len : ℤ) : Decidable (FitsTrunc s i len) := by
  unfold FitsTrunc
  infer_instance

instance (s : Sfs) : DecidablePred (Fits s)
  | .io i _ offset alen write => inferInstanceAs (Decidable (FitsIo s i offset alen write))
  | .truncfile i len => inferInstanceAs (Decidable (FitsTrunc s i len))
  | .tryseek i pos => inferInstanceAs (Decidable (pos < sfsMaxFileSize → (s.din i).size < pos →
      FitsTrunc s i pos))
  | .loadInode _ | .reclaim _ | .hold _ | .release _ | .bmapLoad _ _ | .bmapTruncate _
  | .fsync _ => inferInstanceAs (Decidable True)

instance (dev : Device) (I : Finset ℕ) (s : Sfs) (op : FileOp) :
    Decidable ((fileMachine dev I).Legal s op) :=
  inferInstanceAs (Decidable (FileOp.Legal I s op ∧ Fits s op))

theorem movePiece_runs {write : Bool} {p : Piece} {buf : Bytes} {alen : ℕ} (hu : s.Used b)
    (h0 : 0 < p.size) (hp : p.blkoff + p.size ≤ 4096) :
    Code.Runs (movePiece dev write p b buf alen) s := by
  cases write <;> cases hwb : p.whole <;> simp only [movePiece, hwb]
  · exact (rbuf_runs hu.1 hu.2.1 (by omega) hp).bind fun _ _ _ => Code.Runs.pure _
  · exact (readBlock_runs hu.1 hu.2.1).bind fun _ _ _ => Code.Runs.pure _
  · exact (wbuf_runs hu.1 hu.2.1 (by omega) hp).bind fun _ _ _ => Code.Runs.pure _
  · exact (writeBlock_runs hu.1 hu.2.1).bind fun _ _ _ => Code.Runs.pure _

/-- A piece that is moved leaves the block map and the free blocks as they are. -/
theorem movePiece_need {write : Bool} {p : Piece} {buf : Bytes} {alen : ℕ} {r : Except Errno Bytes}
    (h : Acct I E s) (hi : i ∈ I) (hk : k < 1036) (h0 : s.bmap i k ≠ 0)
    (hp : p.whole = true → p.blkoff = 0 ∧ p.size = 4096)
    (hr : movePiece dev write p (s.bmap i k) buf alen s = some (r, t)) :
    t.sin = s.sin ∧ t.unusedBlocks = s.unusedBlocks ∧ ∀ a c, t.need i a c = s.need i a c := by
  obtain ⟨n, -, rfl, -⟩ | ⟨n, m, -, -, rfl, -⟩ | ⟨e, n, -, -, rfl⟩ := movePiece_spec hp hr
  · exact ⟨rfl, rfl, fun _ _ => rfl⟩
  · have ha := h.wait n
    refine ⟨rfl, rfl, fun a c => need_congr (s := s.wait n) ?_ fun k' _ => ?_⟩
    · exact Acct.dinOf_setBlock (s := s.wait n) m (ha.data_ne_inode hi hk hi)
    · exact ha.bmap_setBlock_data m hi hk h0 hi
  · exact ⟨rfl, rfl, fun _ _ => rfl⟩

theorem ioLoop_runs {write : Bool} : ∀ {ps : List Piece} {buf : Bytes} {alen a c : ℕ} {s : Sfs}
    {E : Set ℕ}, Tiles a ps c →
    (ps ≠ [] → a / 4096 ≤ (s.din i).blocks ∧ (c ≤ 1036 * 4096 ∨ Starved s i (a / 4096))) →
    Acct I E s → Whole I s → s.cached i = true →
    Code.Runs (ioLoop dev i write ps buf alen) s
  | [], _, _, _, _, _, _, _, _, _, _, _ => Code.Runs.pure _
  | p :: ps, buf, alen, a, c, s, E, ht, ha, h, hw, hci => by
    have hi := h.cached i hci
    obtain ⟨⟨hblk, hmod, hpos, hoff, hwh⟩, hnext, ht'⟩ := ht
    have hle := ht'.le
    obtain ⟨hkb, hend⟩ := ha (by simp)
    rw [← hblk] at hkb hend
    have hk : p.blkno < 1036 := by
      by_contra hk
      rcases hend with hend | hend
      · omega
      · rw [Starved, need_of_le (by omega)] at hend
        exact absurd hend (Nat.not_lt_zero _)
    have hrun : Code.Runs (bmapLoad dev i p.blkno) s := bmapLoad_runs h hci hkb hk fun hlt =>
      hw i hi _ hk (by rwa [Acct.dinOf_of_cached hci])
    rw [ioLoop]
    refine hrun.attempt.bind fun r v h₁ => ?_
    obtain ⟨r', h₁, hr⟩ := Code.attempt_eq_some.1 h₁
    cases hr
    obtain ⟨-, -, ⟨b, rfl, hl⟩ | ⟨e, rfl, -⟩⟩ := bmapLoad_spec h hci h₁
    · dsimp only
      have hb : v.bmap i p.blkno = b := by rw [hl.mapped.bmap i hi _ hk, if_pos ⟨rfl, rfl⟩]
      refine (movePiece_runs hl.mapped.in_use hpos hoff).attempt.bind fun r w h₂ => ?_
      obtain ⟨r', h₂, hr⟩ := Code.attempt_eq_some.1 h₂
      cases hr
      cases r with
      | error e => exact Code.Runs.pure _
      | ok buf' =>
        have hio : ioLoop dev i write [p] buf alen s =
            some (.ok ⟨none, alen + p.size, buf'⟩, w) := by
          rw [ioLoop, Code.attempt_bind_eq_some]
          refine ⟨_, v, h₁, ?_⟩
          rw [Code.attempt_bind_eq_some]
          exact ⟨_, w, h₂, Code.pure_eq_some.2 ⟨rfl, rfl⟩⟩
        have hkw := ioLoop_kept (fun q hq => by rw [List.mem_singleton] at hq; exact hq ▸ hwh) h hci
          hio
        obtain ⟨⟨⟨E', -, -, hacc⟩, hwhole⟩, hcw⟩ := hkw
        obtain ⟨hsin, hun, hnd⟩ := movePiece_need (k := p.blkno) hl.acct hi hk
          (by rw [hb]; exact hl.mapped.ne_zero) hwh (by rw [hb]; exact h₂)
        refine ioLoop_runs ht' (fun hne => ?_) hacc (hwhole hw) (by rw [hcw, hci])
        have hbw : (w.din i).blocks = max (s.din i).blocks (p.blkno + 1) := by
          rw [Sfs.din, hsin]
          exact hl.blocks
        have hdiv : (a + p.size) / 4096 = p.blkno + 1 := by
          have := hnext hne
          omega
        rw [hdiv]
        refine ⟨by omega, hend.imp_right fun hs => ?_⟩
        have hneed := hl.need hci hi hk le_rfl
        have hcnt := hl.count
        rw [Starved] at hs ⊢
        rw [hnd, hun]
        omega
    · exact Code.Runs.pure _

theorem growLoop_runs : ∀ {n nblks : ℕ} {s : Sfs} {E : Set ℕ}, Acct I E s → Whole I s →
    s.cached i = true → nblks ≤ (s.din i).blocks → (nblks + n ≤ 1036 ∨ Starved s i nblks) →
    Code.Runs (growLoop dev i nblks n) s
  | 0, _, _, _, _, _, _, _, _ => Code.Runs.pure _
  | n + 1, nblks, s, E, h, hw, hc, hb, hend => by
    have hi := h.cached i hc
    have hk : nblks < 1036 := by
      by_contra hk
      rcases hend with hend | hend
      · omega
      · rw [Starved, need_of_le (by omega)] at hend
        exact absurd hend (Nat.not_lt_zero _)
    refine (bmapLoad_runs h hc hb hk fun hlt => hw i hi _ hk
      (by rwa [Acct.dinOf_of_cached hc])).bind fun b v h₁ => ?_
    obtain ⟨⟨⟨E', -, -, ha⟩, hwv⟩, hcv⟩ := bmapLoad_kept h hc h₁
    obtain ⟨-, -, ⟨b', -, hl⟩ | ⟨e, he, -⟩⟩ := bmapLoad_spec h hc h₁
    · refine growLoop_runs ha (hwv hw) (by rw [hcv, hc]) ?_ ?_
      · rw [hl.blocks]
        omega
      · refine hend.imp (fun _ => by omega) fun hs => ?_
        have hneed := hl.need hc hi hk le_rfl
        have hcnt := hl.count
        rw [Starved] at hs ⊢
        omega
    · cases he

/-- A loop that has ended has made the file as long as it should be. -/
theorem growLoop_blocks : ∀ {n nblks : ℕ} {s : Sfs} {E : Set ℕ}, Acct I E s →
    s.cached i = true → nblks = (s.din i).blocks → ∀ {a : Unit},
    growLoop dev i nblks n s = some (.ok a, t) → (t.din i).blocks = nblks + n
  | 0, nblks, s, E, _, _, hb, a, hr => by
    obtain ⟨-, rfl⟩ := Code.pure_eq_some.1 hr
    omega
  | n + 1, nblks, s, E, h, hc, hb, a, hr => by
    obtain ⟨b, v, h₁, hr⟩ | ⟨e, -, he⟩ := Code.bind_eq_some.1 hr
    · obtain ⟨⟨⟨E', -, -, ha⟩, -⟩, hcv⟩ := bmapLoad_kept h hc h₁
      obtain ⟨-, -, ⟨b', -, hl⟩ | ⟨e, he, -⟩⟩ := bmapLoad_spec h hc h₁
      · have hbv : nblks + 1 = (v.din i).blocks := by
          rw [hl.blocks]
          omega
        have := growLoop_blocks ha (by rw [hcv, hc]) hbv hr
        omega
      · cases he
    · cases he

theorem shrinkLoop_runs : ∀ {n : ℕ} {s : Sfs} {E : Set ℕ}, Acct I E s → s.cached i = true →
    n ≤ (s.din i).blocks → Code.Runs (shrinkLoop dev i n) s
  | 0, _, _, _, _, _ => Code.Runs.pure _
  | n + 1, s, E, h, hc, hle => by
    refine (bmapTruncate_runs h hc (by omega)).bind fun a v h₁ => ?_
    obtain ⟨⟨⟨E', -, -, ha⟩, -⟩, hcv⟩ := bmapTruncate_kept h hc h₁
    obtain ⟨-, ⟨-, -, hb⟩ | ⟨e, n, he, -⟩⟩ := bmapTruncate_spec h hc h₁
    · exact shrinkLoop_runs ha (by rw [hcv, hc]) (by omega)
    · cases he

theorem shrinkLoop_blocks : ∀ {n : ℕ} {s : Sfs} {E : Set ℕ}, Acct I E s → s.cached i = true →
    n ≤ (s.din i).blocks → ∀ {a : Unit}, shrinkLoop dev i n s = some (.ok a, t) →
      (t.din i).blocks + n = (s.din i).blocks
  | 0, s, E, _, _, _, a, hr => by
    obtain ⟨-, rfl⟩ := Code.pure_eq_some.1 hr
    rfl
  | n + 1, s, E, h, hc, hle, a, hr => by
    obtain ⟨a, v, h₁, hr⟩ | ⟨e, -, he⟩ := Code.bind_eq_some.1 hr
    · obtain ⟨⟨⟨E', -, -, ha⟩, -⟩, hcv⟩ := bmapTruncate_kept h hc h₁
      obtain ⟨-, ⟨-, -, hb⟩ | ⟨e, n, he, -⟩⟩ := bmapTruncate_spec h hc h₁
      · have := shrinkLoop_blocks ha (by rw [hcv, hc]) (by omega) hr
        omega
      · cases he
    · cases he

theorem truncfile_runs {len : ℤ} (h : Acct I E s) (hw : Whole I s) (hc : s.cached i = true)
    (hf : FitsTrunc s i len) : Code.Runs (truncfile dev i len) s := by
  unfold truncfile
  split
  · exact Code.Runs.throw _
  · rename_i hlen
    simp only [not_or, not_lt] at hlen
    have hf' := hf hlen.1 hlen.2
    rw [Code.runs_get_bind]
    split
    · rename_i hs
      rw [if_pos hs] at hf'
      exact Code.Runs.assert hf'
    · rename_i hs
      rw [if_neg hs] at hf'
      -- the loop ends with the number of blocks wanted
      have hloop : Code.Runs (resize dev i (s.din i).blocks ((len.toNat + 4095) / 4096)) s ∧
          ∀ a v, resize dev i (s.din i).blocks ((len.toNat + 4095) / 4096) s = some (.ok a, v) →
            (v.din i).blocks = (len.toNat + 4095) / 4096 := by
        unfold resize
        split
        · refine ⟨growLoop_runs h hw hc le_rfl (hf'.imp_left fun _ => by omega), fun a v hr => ?_⟩
          have := growLoop_blocks h hc rfl hr
          omega
        · refine ⟨shrinkLoop_runs h hc (by omega), fun a v hr => ?_⟩
          have := shrinkLoop_blocks h hc (by omega) hr
          omega
      refine hloop.1.bind fun a v hr => ?_
      rw [Code.runs_get_bind, Code.runs_assert_bind]
      exact ⟨hloop.2 a v hr, _, _, Code.modify_eq_some.2 ⟨rfl, rfl⟩⟩

theorem tryseek_runs {pos : ℤ} (h : Acct I E s) (hw : Whole I s) (hc : s.cached i = true)
    (hf : pos < sfsMaxFileSize → (s.din i).size < pos → FitsTrunc s i pos) :
    Code.Runs (tryseek dev i pos) s := by
  unfold tryseek
  split
  · exact Code.Runs.throw _
  · rename_i hp
    simp only [not_or, not_le, not_lt] at hp
    rw [Code.runs_get_bind]
    split
    · rename_i hs
      exact truncfile_runs h hw hc (hf hp.2 hs)
    · exact Code.Runs.pure _

/-- The end of a write, after the check. -/
theorem endpos_write {offset : ℤ} {alen m : ℕ} (h0 : 0 ≤ offset) (hmax : offset < m)
    (hne : offset ≠ offset + alen) :
    offset.toNat < (if (m : ℤ) < offset + alen then (m : ℤ) else offset + alen).toNat ∧
      (if (m : ℤ) < offset + alen then (m : ℤ) else offset + alen).toNat =
        min (offset.toNat + alen) m := by
  split <;> omega

/-- The end of a read, after the checks. -/
theorem endpos_read {offset e : ℤ} {size : ℕ} (h0 : 0 ≤ offset) (hsz : ¬(size : ℤ) ≤ offset)
    (he : offset.toNat < e.toNat) :
    offset.toNat < (if (size : ℤ) < e then (size : ℤ) else e).toNat ∧
      (if (size : ℤ) < e then (size : ℤ) else e).toNat = min e.toNat size := by
  split <;> omega

theorem ioNolock_runs {buf : Bytes} {offset : ℤ} {alen : ℕ} {write : Bool} (h : Acct I E s)
    (hw : Whole I s) (hc : s.cached i = true) (ht : (s.din i).type ≠ sfsTypeDir)
    (hlen : alen < 2 ^ 64) (hf : FitsIo s i offset alen write) :
    Code.Runs (ioNolock dev i buf offset alen write) s := by
  rw [ioNolock, Code.runs_get_bind, Code.runs_assert_bind]
  refine ⟨ht, ?_⟩
  dsimp only
  split
  · exact Code.Runs.pure _
  · rename_i hchk
    simp only [not_or, not_lt, not_le] at hchk
    obtain ⟨h0, hmax, hend⟩ := hchk
    split
    · exact Code.Runs.pure _
    · rename_i hne
      -- an end that is not below the offset has not wrapped
      have hmax' : sfsMaxFileSize = 134217728 := by decide
      have hendpos :
          Int.bmod (offset + alen) (2 ^ 64) = offset + alen ∧ offset + alen < 2 ^ 63 := by
        rw [Int.bmod_def] at hend ⊢
        omega
      obtain ⟨he, hlt⟩ := hendpos
      rw [he] at hend hne ⊢
      have hpos : 0 < alen := by omega
      obtain ⟨hw1, hw2⟩ := endpos_write h0 hmax hne
      split
      · rename_i hwr
        split
        · exact Code.Runs.pure _
        · rename_i hsz
          obtain ⟨g1, g2⟩ := hf h0 hmax hlt hpos fun _ => not_le.1 hsz
          rw [hwr, if_neg (by simp)] at g2
          obtain ⟨hr1, hr2⟩ := endpos_read h0 hsz hw1
          refine ioLoop_runs (ioPieces_tiles hr1) (fun _ => ⟨g1, g2.imp_left fun g2 => ?_⟩) h hw hc
          rw [hr2, hw2]
          exact le_trans (min_le_min_right _ (min_le_left _ _)) g2
      · rename_i hwr
        obtain ⟨g1, g2⟩ := hf h0 hmax hlt hpos fun hwf => absurd hwf hwr
        rw [if_pos (by simpa using hwr)] at g2
        refine (ioLoop_runs (ioPieces_tiles hw1) (fun _ => ⟨g1, g2.imp_left fun g2 => ?_⟩) h hw
          hc).bind fun out v _ => ?_
        · rwa [hw2]
        · rw [Code.runs_get_bind]
          split
          · rw [Code.runs_modify_bind]
            exact Code.Runs.pure _
          · exact Code.Runs.pure _

theorem map_snd_of_runs {α : Type} {x : K α} (h : Code.Runs x s) :
    ∃ t, (x s).map Prod.snd = some t := by
  obtain ⟨r, t, h⟩ := h
  exact ⟨t, by rw [h]; rfl⟩

end Ucore
