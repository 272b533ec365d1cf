/-
  `sysfile_read` of `kern/fs/sysfile.c`.

  What `kmalloc` finds in the buffer is `junk`.  A count is at most the size of a file, which an
  `int` holds.

  * `served`: how many bytes the file system delivers for a call;
  * `readLoop_run`: what is stored, and when the position agrees with it;
  * `sysfile_read_iff`: the position is right exactly if what is delivered can be stored.
-/
import Ucore.Fs.UserFile

namespace Ucore

/-! ## The code -/

namespace UserSys

def ioBufSize : ℕ := 4096

/-- What `sysfile_read` and `sysfile_write` return: the bytes copied, if any, or `ret`. -/
def copiedOr : ℕ × Option Errno → Code UserSys Errno ℕ
  | (copied, ret) =>
    if copied ≠ 0 then pure copied
    else
      match ret with
      | some ret => Code.throw ret
      | none => pure 0

section
variable (dev : Device) (junk : Bytes)

/-- The loop of `sysfile_read`; each round but the last one reads a byte. -/
def readLoop (fd : ℕ) : ℕ → ℕ → ℕ → ℕ → Bytes → Code UserSys Errno (ℕ × Option Errno)
  | 0, _, _, _, _ => Code.panic
  | n + 1, base, len, copied, buffer =>
    if len = 0 then pure (copied, none)
    else do
      let out ← onSys (FileSys.fileRead dev fd buffer (min ioBufSize len))
      if out.alen = 0 then pure (copied, out.ret)
      else do
        if ← copyToUser base out.buf out.alen then do
          Code.assert (out.alen ≤ len)
          match out.ret with
          | some ret => pure (copied + out.alen, some ret)
          | none => readLoop fd n (base + out.alen) (len - out.alen) (copied + out.alen) out.buf
        else pure (copied, some (out.ret.getD .inval))

def sysfileRead (fd base len : ℕ) : Code UserSys Errno ℕ :=
  if len = 0 then pure 0
  else do
    if ← onSys (FileSys.fileTestfd fd true false) then do
      onSys (FileSys.onFs (kmalloc dev))
      let r ← readLoop dev fd (len + 1) base len 0 junk
      copiedOr r
    else Code.throw .inval

end

/-- The position of a descriptor. -/
def pos (s : UserSys) (fd : ℕ) : ℤ := (s.sys.files.fdArray fd).pos

end UserSys

/-! ## What the file system delivers -/

section
variable (dev : Device) (ino : ℕ)

/-- How many bytes `vop_read` delivers in chunks, up to the first one that it does not deliver
    whole. -/
def servedFrom : ℕ → ℤ → ℕ → Bytes → Sfs → ℕ
  | 0, _, _, _, _ => 0
  | n + 1, pos, len, buffer, s =>
    if len = 0 then 0
    else
      match ioNolock dev ino buffer pos (min UserSys.ioBufSize len) false s with
      | some (.ok ⟨none, alen, buf⟩, t) =>
        if alen = 0 then 0 else alen + servedFrom n (pos + alen) (len - alen) buf t
      | some (.ok ⟨some _, alen, _⟩, _) => alen
      | _ => 0

/-- How many bytes `vop_read` delivers for a call, if there is a buffer for them. -/
def served (junk : Bytes) (pos : ℤ) (len : ℕ) (s : Sfs) : ℕ :=
  match kmalloc dev s with
  | some (.ok _, t) => servedFrom dev ino (len + 1) pos len junk t
  | _ => 0

end

variable {dev : Device} {I : Finset ℕ} {E : Set ℕ} {s t : Sfs} {fd ino len base : ℕ} {junk : Bytes}
  {p : ℤ}

theorem avail_chunk {a : ℕ} (ha : a = s.avail ino p (min UserSys.ioBufSize len)) (h0 : a ≠ 0) :
    0 ≤ p ∧ a ≤ len ∧ s.avail ino p len = a + s.avail ino (p + a) (len - a) := by
  rw [Sfs.avail] at ha
  split at ha
  · rename_i hp
    rw [Sfs.avail, Sfs.avail, if_pos hp, if_pos (by omega)]
    omega
  · exact absurd ha h0

theorem avail_eq_zero (h0 : s.avail ino p (min UserSys.ioBufSize len) = 0) :
    s.avail ino p len = 0 := by
  unfold Sfs.avail UserSys.ioBufSize at *
  split
  · rename_i hp
    rw [if_pos hp] at h0
    omega
  · rfl

/-- **What is delivered** is what there is, unless a request fails. -/
theorem servedFrom_le (dev : Device) : ∀ {n len : ℕ} {p : ℤ} {buf : Bytes} {s : Sfs}, Acct I E s →
    ReadableFile s ino → len < n → servedFrom dev ino n p len buf s ≤ s.avail ino p len ∧
      (¬dev.Faulty → servedFrom dev ino n p len buf s = s.avail ino p len)
  | n + 1, len, p, buf, s, h, hf, hn => by
    rw [servedFrom]
    by_cases hlen : len = 0
    · subst hlen
      rw [if_pos rfl, Sfs.avail]
      simp
    · rw [if_neg hlen]
      obtain ⟨m, ⟨ret, alen, buf'⟩, hrun, hc⟩ :
          ∃ n out, ioNolock dev ino buf p (min UserSys.ioBufSize len) false s =
            some (.ok out, s.wait n) ∧ _ :=
        ioNolock_reads dev h hf p (Nat.min_le_left _ _) buf
      have hle : alen ≤ s.avail ino p len := by
        refine hc.le.trans ?_
        unfold Sfs.avail
        split <;> omega
      rw [hrun]
      cases ret with
      | some e =>
        refine ⟨hle, fun hd => ?_⟩
        have h0 := avail_eq_zero ((hc.error e rfl).resolve_left hd)
        dsimp only
        omega
      | none =>
        dsimp only
        by_cases h0 : alen = 0
        · rw [if_pos h0, avail_eq_zero ((hc.all rfl).symm.trans h0)]
          exact ⟨le_refl _, fun _ => rfl⟩
        · rw [if_neg h0]
          obtain ⟨hp, hal, hav⟩ := avail_chunk (hc.all rfl) h0
          have ih : servedFrom dev ino n (p + alen) (len - alen) buf' (s.wait m) ≤
              s.avail ino (p + alen) (len - alen) ∧ _ :=
            servedFrom_le dev (h.wait m) (hf.wait m) (by omega)
          rw [hav]
          exact ⟨Nat.add_le_add_left ih.1 _, fun hd => congrArg (alen + ·) (ih.2 hd)⟩

/-! ## The loop -/

/-- Descriptor `fd` of the process is open for reading on the regular file `ino`. -/
structure OnFile (fd ino : ℕ) (mm : Vmm.MmStruct) (s : UserSys) : Prop where
  opened : s.sys.files.Opened fd ino
  acct : ∃ I E, Acct I E s.sys.fs
  file : ReadableFile s.sys.fs ino
  space : s.mm = some mm
  ordered : mm.Ordered

variable {mm : Vmm.MmStruct} {u v : UserSys}

/-- The process after a chunk. -/
theorem OnFile.step (h : OnFile fd ino mm u) (pos : ℤ) (n : ℕ) {mm' : Vmm.MmStruct}
    (ho : mm'.Ordered) (mem : Bytes) :
    OnFile fd ino mm' ⟨⟨u.sys.files.posed fd pos, u.sys.fs.wait n⟩, some mm', mem⟩ := by
  obtain ⟨I, E, ha⟩ := h.acct
  exact ⟨h.opened.posed pos, ⟨I, E, ha.wait n⟩, h.file.wait n, rfl, ho⟩

/-- `k` bytes have been stored, and the position has gone on by as many exactly if each of the bytes
    that are delivered may be stored. -/
structure Stored (fd ino base served : ℕ) (mm : Vmm.MmStruct) (u v : UserSys) (k : ℕ) : Prop where
  mem : v.mem = u.mem.copy base (u.sys.fs.bytesAt ino (u.pos fd)) k
  le : k ≤ served
  pos : v.pos fd = u.pos fd + k ↔ ∀ q < served, UserByte mm true (base + q)

theorem pos_posed {files : FileTable ℕ} {fs : Sfs} {o : Option Vmm.MmStruct}
    {mem : Bytes} {pos : ℤ} :
    UserSys.pos ⟨⟨files.posed fd pos, fs⟩, o, mem⟩ fd = pos := by
  simp [UserSys.pos, FileTable.posed]

namespace Stored

/-- Nothing is stored, and nothing has been delivered. -/
theorem nothing (hmem : v.mem = u.mem) (hpos : v.pos fd = u.pos fd) :
    Stored fd ino base 0 mm u v 0 := by
  refine ⟨?_, le_refl _, fun _ q hq => absurd hq (Nat.not_lt_zero q), fun _ => ?_⟩
  · rw [hmem, Bytes.copy_zero]
  · rw [hpos, Nat.cast_zero, Int.add_zero]

/-- A chunk cannot be stored. -/
theorem refused {alen served : ℕ} (hmem : v.mem = u.mem) (hpos : v.pos fd = u.pos fd + alen)
    (h0 : alen ≠ 0) (hle : alen ≤ served) (hno : ¬∀ q < alen, UserByte mm true (base + q)) :
    Stored fd ino base served mm u v 0 := by
  refine ⟨?_, Nat.zero_le _, fun h => ?_, fun h => ?_⟩
  · rw [hmem, Bytes.copy_zero]
  · rw [hpos] at h
    omega
  · exact absurd (fun q hq => h q (lt_of_lt_of_le hq hle)) hno

/-- A chunk is stored, and then the rest. -/
theorem cons {w : UserSys} {alen served k : ℕ} {mm' : Vmm.MmStruct} {buf : Bytes}
    (hbuf : ∀ q < alen, buf q = u.sys.fs.bytesAt ino (u.pos fd) q)
    (hmem : w.mem = u.mem.copy base buf alen) (hpos : w.pos fd = u.pos fd + alen)
    (hbyte : w.sys.fs.byte ino = u.sys.fs.byte ino) (h0 : 0 ≤ u.pos fd)
    (hok : ∀ q < alen, UserByte mm true (base + q)) (hareas : mm'.mmapList = mm.mmapList)
    (h : Stored fd ino (base + alen) served mm' w v k) :
    Stored fd ino base (alen + served) mm u v (alen + k) := by
  have hle := h.le
  refine ⟨?_, by omega, ?_⟩
  · rw [h.mem, hmem]
    refine Bytes.copy_copy (fun j hj => (hbuf j hj).symm) fun j _ => ?_
    rw [Sfs.bytesAt, Sfs.bytesAt, hpos, hbyte]
    congr 1
    omega
  · have hiff : v.pos fd = u.pos fd + (alen + k : ℕ) ↔ v.pos fd = w.pos fd + k := by
      rw [hpos]
      omega
    rw [hiff, h.pos]
    constructor
    · intro hall q hq
      by_cases hlt : q < alen
      · exact hok q hlt
      · have := (UserByte.congr hareas).1 (hall (q - alen) (by omega))
        rwa [Nat.add_assoc, Nat.add_sub_cancel' (not_lt.1 hlt)] at this
    · intro hall q hq
      rw [UserByte.congr hareas, Nat.add_assoc]
      exact hall _ (by omega)

end Stored

/-- **The loop of `sysfile_read`.** -/
theorem readLoop_run (dev : Device) : ∀ {n len base copied : ℕ} {buf : Bytes} {u : UserSys}
    {mm : Vmm.MmStruct}, OnFile fd ino mm u → base < 2 ^ 64 → len < 2 ^ 64 → len < n →
    ∃ k ret v, UserSys.readLoop dev fd n base len copied buf u = some (.ok (copied + k, ret), v) ∧
      Stored fd ino base (servedFrom dev ino n (u.pos fd) len buf u.sys.fs) mm u v k
  | n + 1, len, base, copied, buf, u, mm, h, hb, hl, hn => by
    obtain ⟨I, E, ha⟩ := h.acct
    rw [UserSys.readLoop, servedFrom]
    by_cases hlen : len = 0
    · rw [if_pos hlen, if_pos hlen]
      exact ⟨0, none, u, rfl, .nothing rfl rfl⟩
    · rw [if_neg hlen, if_neg hlen]
      obtain ⟨m, ⟨ret, alen, buf'⟩, hrun, hc⟩ :
          ∃ n out, ioNolock dev ino buf (u.pos fd) (min UserSys.ioBufSize len) false u.sys.fs =
            some (.ok out, u.sys.fs.wait n) ∧ _ :=
        ioNolock_reads dev ha h.file (u.pos fd) (Nat.min_le_left _ _) buf
      obtain ⟨w, hw⟩ : ∃ w : UserSys, w =
          { u with sys := ⟨u.sys.files.posed fd (u.pos fd + alen), u.sys.fs.wait m⟩ } := ⟨_, rfl⟩
      have hread : UserSys.onSys (FileSys.fileRead dev fd buf (min UserSys.ioBufSize len)) u =
          some (.ok ⟨ret, alen, buf'⟩, w) :=
        hw ▸ Code.on_run (fileIo_run h.opened.isOpen h.opened.readable hrun)
      have hwpos : w.pos fd = u.pos fd + alen := hw ▸ pos_posed
      rw [hrun, Code.bind_ok hread]
      by_cases h0 : alen = 0
      · rw [if_pos h0]
        refine ⟨0, ret, w, rfl, ?_⟩
        have hnone : Stored fd ino base 0 mm u w 0 := by
          refine .nothing (by rw [hw]) ?_
          rw [hwpos, h0, Nat.cast_zero, Int.add_zero]
        cases ret with
        | none =>
          dsimp only
          rwa [if_pos h0]
        | some e =>
          dsimp only
          rwa [h0]
      · rw [if_neg h0]
        have halen : alen ≤ len := by
          have := hc.le
          unfold Sfs.avail at this
          split at this <;> dsimp only at this <;> omega
        obtain ⟨r, o, hcopy, ⟨mm', rfl, ho, hlist⟩, hr⟩ : ∃ r o,
            UserSys.copyToUser base buf' alen w = some (.ok r, { w with
              mm := o
              mem := if r = true then w.mem.copy base buf' alen else w.mem }) ∧ _ :=
          UserSys.copyToUser_run (hw ▸ h.space) h.ordered hb (by omega) (Nat.pos_of_ne_zero h0) buf'
        obtain ⟨x, hx⟩ : ∃ x : UserSys, x = { w with
            mm := some mm'
            mem := if r = true then w.mem.copy base buf' alen else w.mem } := ⟨_, rfl⟩
        have hxpos : x.pos fd = u.pos fd + alen := by
          rw [hx]
          exact hwpos
        rw [← hx] at hcopy
        rw [Code.bind_ok hcopy]
        have hav : alen ≤ u.sys.fs.avail ino (u.pos fd) (min UserSys.ioBufSize len) := hc.le
        have hp0 : 0 ≤ u.pos fd := by
          unfold Sfs.avail at hav
          split at hav
          · assumption
          · omega
        cases r with
        | false =>
          have hno : ¬∀ q < alen, UserByte mm true (base + q) := fun hall =>
            Bool.false_ne_true (hr.2 hall)
          have hmem : x.mem = u.mem := by
            rw [hx, hw]
            rfl
          refine ⟨0, some (ret.getD .inval), x, rfl, ?_⟩
          cases ret with
          | none =>
            dsimp only
            rw [if_neg h0]
            exact .refused hmem hxpos h0 (Nat.le_add_right _ _) hno
          | some e => exact .refused hmem hxpos h0 (le_refl _) hno
        | true =>
          have hok := hr.1 rfl
          have hmem : x.mem = u.mem.copy base buf' alen := by
            rw [hx, hw]
            rfl
          rw [if_pos rfl, Code.assert_bind halen]
          cases ret with
          | some e =>
            refine ⟨alen, some e, x, rfl, ?_⟩
            have hlast : Stored fd ino (base + alen) 0 mm' x x 0 := .nothing rfl rfl
            exact hlast.cons hc.bytes hmem hxpos (by rw [hx, hw]; rfl) hp0 hok hlist
          | none =>
            have hbase := (hok (alen - 1) (by omega)).1.2
            have htop : Pmm.userTop < 2 ^ 64 := by decide
            have hstep : OnFile fd ino mm' x := by
              rw [hx, hw]
              exact h.step _ m ho _
            obtain ⟨k, ret', v, hloop, hst⟩ : ∃ k ret v, UserSys.readLoop dev fd n (base + alen)
                (len - alen) (copied + alen) buf' x = some (.ok (copied + alen + k, ret), v) ∧ _ :=
              readLoop_run dev hstep (by omega) (by omega) (by omega)
            refine ⟨alen + k, ret', v, ?_, ?_⟩
            · rw [← Nat.add_assoc]
              exact hloop
            · have hfs : x.sys.fs = u.sys.fs.wait m := by rw [hx, hw]
              dsimp only
              rw [if_neg h0, ← hxpos, ← hfs]
              exact hst.cons hc.bytes hmem hxpos (by rw [hfs]; rfl) hp0 hok hlist

/-! ## The call -/

/-- A read consumes what it delivers: the `n` bytes behind the old position have been stored, and
    the position is behind them; or an error has left it alone. -/
def Consumes (fd ino base len : ℕ) (u v : UserSys) : Except Errno ℕ → Prop
  | .ok n => n ≤ u.sys.fs.avail ino (u.pos fd) len ∧
      v.mem = u.mem.copy base (u.sys.fs.bytesAt ino (u.pos fd)) n ∧ v.pos fd = u.pos fd + n
  | .error _ => v.pos fd = u.pos fd

theorem Stored.consumes {served k : ℕ} (h : Stored fd ino base served mm u v k)
    (hle : served ≤ u.sys.fs.avail ino (u.pos fd) len) (ret : Option Errno) :
    ∃ r, UserSys.copiedOr (k, ret) v = some (r, v) ∧
      (Consumes fd ino base len u v r ↔ ∀ q < served, UserByte mm true (base + q)) := by
  rw [← h.pos]
  by_cases h0 : k = 0
  · subst h0
    have hzero : v.pos fd = u.pos fd + (0 : ℕ) ↔ v.pos fd = u.pos fd := by
      rw [Nat.cast_zero, Int.add_zero]
    cases ret with
    | none =>
      exact ⟨.ok 0, rfl, fun hc => hc.2.2, fun hp => ⟨Nat.zero_le _, h.mem, hp⟩⟩
    | some e => exact ⟨.error e, rfl, hzero.symm⟩
  · refine ⟨.ok k, ?_, fun hc => hc.2.2, fun hp => ⟨h.le.trans hle, h.mem, hp⟩⟩
    unfold UserSys.copiedOr
    dsimp only
    rw [if_pos h0]
    rfl

theorem fileTestfd_run {readable writable : Bool} (h : u.sys.files.Open fd ino)
    (hr : readable = true → (u.sys.files.fdArray fd).readable = true)
    (hw : writable = true → (u.sys.files.fdArray fd).writable = true) :
    UserSys.onSys (FileSys.fileTestfd fd readable writable) u = some (.ok true, u) := by
  have hfile : FileSys.onFiles (FileTable.fd2file fd) u.sys =
      some (.ok (u.sys.files.fdArray fd), u.sys) := Code.on_run h.fd2file_run
  have htest : FileSys.fileTestfd fd readable writable u.sys = some (.ok true, u.sys) := by
    unfold FileSys.fileTestfd
    rw [Code.attempt_bind hfile]
    dsimp only
    rw [if_neg fun e => Bool.false_ne_true (e.2.symm.trans (hr e.1)),
      if_neg fun e => Bool.false_ne_true (e.2.symm.trans (hw e.1))]
    rfl
  exact Code.on_run htest

theorem served_le (dev : Device) (h : Acct I E s) (hf : ReadableFile s ino) :
    served dev ino junk p len s ≤ s.avail ino p len ∧
      (¬dev.Faulty → served dev ino junk p len s = s.avail ino p len) := by
  obtain ⟨m, r, hk, rfl | ⟨hd, e, rfl⟩⟩ : s.Reads dev (kmalloc dev) (.ok ()) := kmalloc_reads
  · rw [served, hk]
    exact servedFrom_le dev (h.wait m) (hf.wait m) (Nat.lt_succ_self len)
  · rw [served, hk]
    exact ⟨Nat.zero_le _, fun hs => absurd hd hs⟩

theorem served_none (h0 : len = 0) : served dev ino junk p len s = 0 := by
  unfold served
  split
  · rw [servedFrom, if_pos h0]
  · rfl

theorem sysfileRead_consumes (dev : Device) (junk : Bytes) (h : OnFile fd ino mm u)
    (hb : base < 2 ^ 64) (hl : len < 2 ^ 64) :
    ∃ r v, UserSys.sysfileRead dev junk fd base len u = some (r, v) ∧
      (Consumes fd ino base len u v r ↔
        ∀ q < served dev ino junk (u.pos fd) len u.sys.fs, UserByte mm true (base + q)) := by
  obtain ⟨I, E, ha⟩ := h.acct
  have hle : served dev ino junk (u.pos fd) len u.sys.fs ≤ u.sys.fs.avail ino (u.pos fd) len :=
    (served_le dev ha h.file).1
  have htest : UserSys.onSys (FileSys.fileTestfd fd true false) u = some (.ok true, u) :=
    fileTestfd_run h.opened.isOpen (fun _ => h.opened.readable) nofun
  by_cases hlen : len = 0
  · refine ⟨.ok 0, u, ?_, ?_⟩
    · rw [UserSys.sysfileRead, if_pos hlen]
      rfl
    · rw [served_none hlen]
      refine ⟨fun _ q hq => absurd hq (Nat.not_lt_zero q), fun _ => ⟨Nat.zero_le _, ?_, ?_⟩⟩
      · rw [Bytes.copy_zero]
      · rw [Nat.cast_zero, Int.add_zero]
  · have hstart : UserSys.sysfileRead dev junk fd base len u = (do
        UserSys.onSys (FileSys.onFs (kmalloc dev))
        let r ← UserSys.readLoop dev fd (len + 1) base len 0 junk
        UserSys.copiedOr r : Code UserSys Errno ℕ) u := by
      rw [UserSys.sysfileRead, if_neg hlen, Code.bind_ok htest, if_pos rfl]
    rw [hstart]
    obtain ⟨m, r, hk, hr⟩ : u.sys.fs.Reads dev (kmalloc dev) (.ok ()) := kmalloc_reads
    obtain ⟨w, hw⟩ : ∃ w : UserSys, w = { u with sys := ⟨u.sys.files, u.sys.fs.wait m⟩ } := ⟨_, rfl⟩
    have hwpos : w.pos fd = u.pos fd := by rw [hw, UserSys.pos, UserSys.pos]
    have hmalloc : UserSys.onSys (FileSys.onFs (kmalloc dev)) u = some (r, w) := by
      have hfs : FileSys.onFs (kmalloc dev) u.sys = some (r, ⟨u.sys.files, u.sys.fs.wait m⟩) :=
        Code.on_run hk
      exact hw ▸ Code.on_run hfs
    obtain rfl | ⟨hf, e, rfl⟩ := hr
    · have hserved : served dev ino junk (u.pos fd) len u.sys.fs =
          servedFrom dev ino (len + 1) (w.pos fd) len junk w.sys.fs := by
        rw [served, hk, hwpos, hw]
      have hwf : OnFile fd ino mm w := by
        rw [hw]
        exact ⟨h.opened, ⟨I, E, ha.wait m⟩, h.file.wait m, h.space, h.ordered⟩
      obtain ⟨k, ret, v, hloop, hst⟩ : ∃ k ret v,
          UserSys.readLoop dev fd (len + 1) base len 0 junk w = some (.ok (0 + k, ret), v) ∧ _ :=
        readLoop_run dev hwf hb hl (Nat.lt_succ_self len)
      rw [← hserved] at hst
      have hst' : Stored fd ino base (served dev ino junk (u.pos fd) len u.sys.fs) mm u v k := by
        refine ⟨?_, hst.le, ?_⟩
        · rw [hst.mem, hwpos, hw]
          rfl
        · rw [← hst.pos, hwpos]
      obtain ⟨r, hr, hiff⟩ := hst'.consumes hle ret
      refine ⟨r, v, ?_, hiff⟩
      rw [Code.bind_ok hmalloc, Code.bind_ok hloop, Nat.zero_add]
      exact hr
    · refine ⟨.error e, w, Code.bind_error hmalloc, fun _ q hq => ?_, fun _ => hwpos⟩
      rw [served, hk] at hq
      exact absurd hq (Nat.not_lt_zero q)

/-- **A read consumes what it delivers** exactly if each byte that is delivered may be stored in the
buffer.  These are the bytes that there are, at most `len`, unless a request fails. -/
theorem sysfile_read_iff (dev : Device) (junk : Bytes) (h : OnFile fd ino mm u)
    (hb : base < 2 ^ 64) (hl : len < 2 ^ 64) :
    (∃ r v, UserSys.sysfileRead dev junk fd base len u = some (r, v) ∧
      (Consumes fd ino base len u v r ↔
        ∀ q < served dev ino junk (u.pos fd) len u.sys.fs, UserByte mm true (base + q))) ∧
    served dev ino junk (u.pos fd) len u.sys.fs ≤ u.sys.fs.avail ino (u.pos fd) len ∧
    (¬dev.Faulty → served dev ino junk (u.pos fd) len u.sys.fs =
      u.sys.fs.avail ino (u.pos fd) len) := by
  obtain ⟨I, E, ha⟩ := h.acct
  exact ⟨sysfileRead_consumes dev junk h hb hl, served_le dev ha h.file⟩

/-! ## A file of two bytes -/

/-- A process with a readable area and a stack, of which descriptor 3 is open on a file. -/
def twoAreasUser (fs : Sfs) : UserSys := ⟨⟨openAt 3, fs⟩, some Vmm.twoAreas, fun _ => 0⟩

/-- What a file in an image has to satisfy. -/
theorem onFile_twoAreas {s : Sfs} (h : (blockMachine soundDevice {1, 3}).Reach s)
    (hf : s.cached 3 = true ∧ (s.din 3).type = sfsTypeFile ∧ (s.din 3).blocks ≤ 12 ∧
      (s.din 3).size ≤ (s.din 3).blocks * 4096 ∧
      ∀ k : Fin 12, k < (s.din 3).blocks → (s.din 3).direct k ≠ 0) :
    OnFile 3 3 Vmm.twoAreas (twoAreasUser s) := by
  obtain ⟨hc, ht, hb, hsize, hdir⟩ := hf
  refine ⟨⟨by decide, rfl, rfl, rfl, rfl, (by decide : 0 < ((openAt 3).fdArray 3).openCount)⟩,
    ⟨_, _, reach_acct (fun _ => rfl) h⟩,
      ⟨hc, ht, hb.trans (by decide), hsize, fun k _ hk => ?_⟩, rfl,
    Vmm.ordered_of_reach Vmm.reach_twoAreas⟩
  have hk' : k < 12 := lt_of_lt_of_le hk hb
  change (s.dinOf 3).entry s.disk k ≠ 0
  rw [Acct.dinOf_of_cached hc, DiskInode.entry, dif_pos hk']
  exact hdir ⟨k, hk'⟩ hk

/-- Two bytes are read to the stack. -/
theorem sysfile_read_iff_stack : ∃ s r v, (blockMachine soundDevice {1, 3}).Reach s ∧
    UserSys.sysfileRead soundDevice (fun _ => 0) 3 0x302000 2 (twoAreasUser s) = some (r, v) ∧
    Consumes 3 3 0x302000 2 (twoAreasUser s) v r := by
  have hrun : (((blockMachine soundDevice {1, 3}).run emptyFileImage
      [.loadInode 3, .io 3 (fun _ => 7) 0 2 true]).bind fun s =>
        if s.cached 3 = true ∧ (s.din 3).type = sfsTypeFile ∧ (s.din 3).blocks ≤ 12 ∧
          (s.din 3).size ≤ (s.din 3).blocks * 4096 ∧
          ∀ k : Fin 12, k < (s.din 3).blocks → (s.din 3).direct k ≠ 0
        then some () else none) = some () := by decide +kernel
  obtain ⟨s, hs, hif⟩ := Option.bind_eq_some_iff.1 hrun
  split at hif
  · rename_i hc
    have hreach := (Machine.Reach.init mounted_emptyFileImage).run hs
    obtain ⟨⟨r, v, hr, hiff⟩, hle, -⟩ := sysfile_read_iff soundDevice (fun _ => 0)
      (onFile_twoAreas hreach hc) (by decide : 0x302000 < 2 ^ 64) (by decide : 2 < 2 ^ 64)
    refine ⟨s, r, v, hreach, hr, hiff.2 fun q hq => ?_⟩
    have havail : (twoAreasUser s).sys.fs.avail 3 ((twoAreasUser s).pos 3) 2 ≤ 2 := by
      unfold Sfs.avail
      split <;> omega
    have hq2 : q < 2 := lt_of_lt_of_le (lt_of_lt_of_le hq hle) havail
    have hall : ∀ q < 2, UserByte Vmm.twoAreas true (0x302000 + q) := by decide
    exact hall q hq2
  · cases hif

/-- Two bytes are delivered at the end of the stack: an error is returned, and they are skipped. -/
theorem sysfile_read_skips : ∃ s v, (blockMachine soundDevice {1, 3}).Reach s ∧
    OnFile 3 3 Vmm.twoAreas (twoAreasUser s) ∧
    UserSys.sysfileRead soundDevice (fun _ => 0) 3 0x303FFF 2 (twoAreasUser s) =
      some (.error .inval, v) ∧
    (twoAreasUser s).pos 3 = 0 ∧ v.pos 3 = 2 ∧
    ¬Consumes 3 3 0x303FFF 2 (twoAreasUser s) v (.error .inval) := by
  have hrun : (((blockMachine soundDevice {1, 3}).run emptyFileImage
      [.loadInode 3, .io 3 (fun _ => 7) 0 2 true]).bind fun s =>
        (UserSys.sysfileRead soundDevice (fun _ => 0) 3 0x303FFF 2 (twoAreasUser s)).bind fun r =>
          if (s.cached 3 = true ∧ (s.din 3).type = sfsTypeFile ∧ (s.din 3).blocks ≤ 12 ∧
            (s.din 3).size ≤ (s.din 3).blocks * 4096 ∧
            ∀ k : Fin 12, k < (s.din 3).blocks → (s.din 3).direct k ≠ 0) ∧
              r.1 = .error .inval ∧ r.2.pos 3 = 2
          then some () else none) = some () := by decide +kernel
  obtain ⟨s, hs, hrun⟩ := Option.bind_eq_some_iff.1 hrun
  obtain ⟨⟨r, v⟩, hr, hif⟩ := Option.bind_eq_some_iff.1 hrun
  split at hif
  · rename_i hc
    obtain ⟨hfile, hret, hpos⟩ := hc
    dsimp only at hret hpos
    subst hret
    have hreach := (Machine.Reach.init mounted_emptyFileImage).run hs
    refine ⟨s, v, hreach, onFile_twoAreas hreach hfile, hr, rfl, hpos, fun hno => ?_⟩
    have hno' : v.pos 3 = 0 := hno
    omega
  · cases hif

end Ucore
