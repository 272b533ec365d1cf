/-
  `sysfile_write` of `kern/fs/sysfile.c`.

  * `Leading`: the chunks of a buffer up to the first one that cannot be read whole;
  * `Wrote.trans`: a write and another one behind it are one write;
  * `sysfile_write_chunks`: what is written is the leading chunks, as by a single `file_write`.
-/
import Ucore.Fs.SysRead

namespace Ucore

/-! ## The code -/

namespace UserSys

section
variable (dev : Device) (junk : Bytes)

/-- The loop of `sysfile_write`; each round but the last one writes a byte. -/
def writeLoop (fd : ℕ) : ℕ → ℕ → ℕ → ℕ → Bytes → Code UserSys Errno (ℕ × Option Errno)
  | 0, _, _, _, _ => Code.panic
  | n + 1, base, len, copied, buffer =>
    if len = 0 then pure (copied, none)
    else do
      match ← copyFromUser buffer base (min ioBufSize len) with
      | none => pure (copied, some .inval)
      | some buffer => do
        let out ← onSys (FileSys.fileWrite dev fd buffer (min ioBufSize len))
        Code.assert (out.alen ≤ len)
        match out.ret with
        | some ret => pure (copied + out.alen, some ret)
        | none =>
          if out.alen = 0 then pure (copied, none)
          else writeLoop fd n (base + out.alen) (len - out.alen) (copied + out.alen) out.buf

def sysfileWrite (fd base len : ℕ) : Code UserSys Errno ℕ :=
  if len = 0 then pure 0
  else do
    if ← onSys (FileSys.fileTestfd fd false true) then do
      onSys (FileSys.onFs (kmalloc dev))
      let r ← writeLoop dev fd (len + 1) base len 0 junk
      copiedOr r
    else Code.throw .inval

end

end UserSys

variable {dev : Device} {I : Finset ℕ} {E : Set ℕ} {s t u : Sfs} {i fd ino len base p m k n a b : ℕ}
  {buf buf' : Bytes}

/-! ## One write behind another -/

/-- The entries up to a smaller number need less. -/
theorem need_mono (h : m ≤ n) : s.need i k m ≤ s.need i k n := by
  refine Nat.add_le_add (Finset.card_le_card (Finset.filter_subset_filter _ ?_)) ?_
  · exact Finset.Ico_subset_Ico_right h
  · split
    · rename_i hi
      rw [if_pos ⟨hi.1, by omega, by omega⟩]
    · exact Nat.zero_le _

theorem overwrite_overwrite {f d d' : List UInt8} (h : p ≤ f.length) :
    overwrite (overwrite f p d) (p + d.length) d' = overwrite f p (d ++ d') := by
  have hlen : p + d.length ≤ (overwrite f p d).length := by
    rw [overwrite, List.length_append, List.length_append, List.length_take_of_le h]
    omega
  refine List.ext_getElem? fun q => ?_
  rw [getElem?_overwrite hlen, getElem?_overwrite h, getElem?_overwrite h, List.length_append]
  by_cases hd' : p + d.length ≤ q ∧ q < p + d.length + d'.length
  · rw [if_pos hd', if_pos (by omega), List.getElem?_append_right (by omega)]
    congr 1
    omega
  · rw [if_neg hd']
    by_cases hd : p ≤ q ∧ q < p + d.length
    · rw [if_pos hd, if_pos (by omega), List.getElem?_append_left (by omega)]
    · rw [if_neg hd, if_neg (by omega)]

namespace Wrote

theorem congr (h : Wrote I E s t i p len buf) (hb : ∀ q < len, buf q = buf' q) :
    Wrote I E s t i p len buf' := by
  refine ⟨h.acct, h.file, ?_, h.size, h.others, h.need⟩
  rw [h.contents]
  congr 1
  exact List.map_congr_left fun q hq => hb q (List.mem_range.1 hq)

theorem wait (h : Wrote I E (s.wait n) t i p len buf) : Wrote I E s t i p len buf :=
  ⟨h.acct, h.file, h.contents, h.size, h.others, h.need⟩

/-- **A write and another one behind it** are one write. -/
theorem trans (h : Wrote I E s t i p a buf) (h' : Wrote I E t u i (p + a) b buf')
    (hp : p ≤ (s.dinOf i).size) (hb : ∀ q < b, buf' q = buf (a + q)) :
    Wrote I E s u i p (a + b) buf where
  acct := h'.acct
  file := h'.file
  contents := by
    have hlen : ((List.range a).map buf).length = a := by simp
    have hover : overwrite (overwrite (s.contents i) p ((List.range a).map buf))
        (p + ((List.range a).map buf).length) ((List.range b).map buf') = _ :=
      overwrite_overwrite (by rw [length_contents]; exact hp)
    rw [hlen] at hover
    rw [h'.contents, h.contents, hover, List.range_add, List.map_append, List.map_map]
    congr 2
    exact List.map_congr_left fun q hq => hb q (List.mem_range.1 hq)
  size := by
    rw [h'.size, h.size]
    omega
  others j hj hji := (h'.others j hj hji).trans (h.others j hj hji)
  need n hn hn' hneed := by
    rw [← Nat.add_assoc] at hn ⊢
    exact h'.need n hn hn' (h.need n (by omega) hn' hneed)

end Wrote

/-! ## The leading chunks -/

/-- `m` bytes are the chunks of a buffer up to the first one that cannot be read whole. -/
structure Leading (mm : Vmm.MmStruct) (base len m : ℕ) : Prop where
  le : m ≤ len
  chunks : m = len ∨ m % 4096 = 0
  readable : ∀ q < m, UserByte mm false (base + q)
  next : m < len → ¬∀ q < min 4096 (len - m), UserByte mm false (base + m + q)

variable {mm mm' : Vmm.MmStruct}

namespace Leading

theorem all (h : Leading mm base len m) (hr : ∀ q < len, UserByte mm false (base + q)) :
    m = len := by
  have hle := h.le
  by_contra hne
  refine h.next (by omega) fun q hq => ?_
  rw [Nat.add_assoc]
  exact hr _ (by omega)

/-- The first chunk is read if there is one. -/
theorem first (h : Leading mm base len m) (hm : m ≠ 0) : min 4096 len ≤ m := by
  have hle := h.le
  have hc := h.chunks
  omega

theorem rest (h : Leading mm base len m) (hm : m ≠ 0) (ha : mm'.mmapList = mm.mmapList) :
    Leading mm' (base + min 4096 len) (len - min 4096 len) (m - min 4096 len) := by
  have hle := h.le
  have hc := h.chunks
  have hfirst := h.first hm
  refine ⟨by omega, by omega, fun q hq => ?_, fun hlt hall => ?_⟩
  · rw [UserByte.congr ha, Nat.add_assoc]
    exact h.readable _ (by omega)
  · refine h.next (by omega) fun q hq => ?_
    have hq' := hall q (by omega)
    rwa [UserByte.congr ha, Nat.add_assoc base, Nat.add_sub_cancel' hfirst] at hq'

end Leading

theorem exists_leading (mm : Vmm.MmStruct) :
    ∀ {n base len : ℕ}, len < n → ∃ m, Leading mm base len m
  | n + 1, base, len, hn => by
    by_cases hall : ∀ q < min 4096 len, UserByte mm false (base + q)
    · by_cases hlen : len = 0
      · exact ⟨0, by omega, by omega, fun q hq => absurd hq (Nat.not_lt_zero q), by omega⟩
      · obtain ⟨m, h1, h2, h3, h4⟩ :
            ∃ m, Leading mm (base + min 4096 len) (len - min 4096 len) m :=
          exists_leading mm (n := n) (by omega)
        refine ⟨min 4096 len + m, by omega, by omega, fun q hq => ?_, fun hlt => ?_⟩
        · by_cases hq' : q < min 4096 len
          · exact hall q hq'
          · have hq3 := h3 (q - min 4096 len) (by omega)
            rwa [Nat.add_assoc, Nat.add_sub_cancel' (not_lt.1 hq')] at hq3
        · have hno := h4 (by omega)
          rwa [Nat.sub_sub, Nat.add_assoc base] at hno
    · refine ⟨0, by omega, by omega, fun q hq => absurd hq (Nat.not_lt_zero q), fun _ hno => ?_⟩
      exact hall hno

/-! ## The loop -/

/-- Descriptor `fd` of the process is open for writing on the regular file `ino`. -/
structure OnWritable (I : Finset ℕ) (E : Set ℕ) (fd ino : ℕ) (mm : Vmm.MmStruct) (u : UserSys) :
    Prop where
  opened : u.sys.files.Open fd ino
  writable : (u.sys.files.fdArray fd).writable = true
  acct : Acct I E u.sys.fs
  file : RegularFile u.sys.fs ino
  space : u.mm = some mm
  ordered : mm.Ordered

/-- The position is `p`, in the file or at its end; the block map has entries for `len` bytes, and
    there are blocks for `m` of them. -/
structure Room (fd ino p len m : ℕ) (u : UserSys) : Prop where
  pos : u.pos fd = p
  le : p ≤ (u.sys.fs.din ino).size
  cap : p + len ≤ 1036 * 4096
  need : u.sys.fs.need ino (p / 4096) ((p + m + 4095) / 4096) ≤ u.sys.fs.unusedBlocks

/-- `m` bytes have been written from `p` on. -/
structure Passed (I : Finset ℕ) (E : Set ℕ) (fd ino p m : ℕ) (buf : Bytes) (u v : UserSys) :
    Prop where
  mem : v.mem = u.mem
  files : v.sys.files = u.sys.files.posed fd (p + m : ℕ)
  wrote : Wrote I E u.sys.fs v.sys.fs ino p m buf

variable {u v w : UserSys}

theorem FileTable.posed_posed {V : Type} (t : FileTable V) (fd : ℕ) (x y : ℤ) :
    (t.posed fd x).posed fd y = t.posed fd y := by
  simp [posed]

/-- **A single `file_write`.** -/
theorem fileWrite_run (hd : ¬dev.Faulty) (h : OnWritable I E fd ino mm u) (hr : Room fd ino p m m u)
    (buf : Bytes) : ∃ fs, FileSys.fileWrite dev fd buf m u.sys =
      some (.ok ⟨none, m, buf⟩, ⟨u.sys.files.posed fd (p + m : ℕ), fs⟩) ∧
      Wrote I E u.sys.fs fs ino p m buf := by
  obtain ⟨fs, hio, hw⟩ : ∃ t, ioNolock dev ino buf (p : ℤ) m true u.sys.fs =
      some (.ok ⟨none, m, buf⟩, t) ∧ _ := io_write hd h.acct h.file hr.le hr.cap hr.need
  refine ⟨fs, ?_, hw⟩
  have hpos : (u.sys.files.fdArray fd).pos = p := hr.pos
  rw [← hpos] at hio
  have hrun : FileSys.fileIo dev true fd buf m u.sys = _ := fileIo_run h.opened h.writable hio
  rw [hpos] at hrun
  exact hrun

/-- A chunk is written, of what is to be written. -/
theorem writeChunk_run (hd : ¬dev.Faulty) (h : OnWritable I E fd ino mm u)
    (hr : Room fd ino p len m u) (ham : a ≤ m) (hm : m ≤ len) (ho : mm'.Ordered) (buf : Bytes) :
    ∃ v, UserSys.onSys (FileSys.fileWrite dev fd buf a) { u with mm := some mm' } =
        some (.ok ⟨none, a, buf⟩, v) ∧ OnWritable I E fd ino mm' v ∧
      Room fd ino (p + a) (len - a) (m - a) v ∧ Passed I E fd ino p a buf u v := by
  have hcap := hr.cap
  have hra : Room fd ino p a a u :=
    ⟨hr.pos, hr.le, by omega, (need_mono (by omega)).trans hr.need⟩
  obtain ⟨fs, hrun, hw⟩ := fileWrite_run hd h hra buf
  refine ⟨⟨⟨u.sys.files.posed fd (p + a : ℕ), fs⟩, some mm', u.mem⟩, Code.on_run hrun,
    ⟨h.opened.posed _, ?_, hw.acct, hw.file, rfl, ho⟩, ⟨pos_posed, ?_, by omega, ?_⟩, rfl, rfl, hw⟩
  · simpa [FileTable.posed] using h.writable
  · dsimp only
    rw [hw.size]
    omega
  · rw [Nat.add_assoc p, Nat.add_sub_cancel' ham]
    exact hw.need _ (by omega) (by omega) hr.need

/-- **The loop of `sysfile_write`** writes the leading chunks. -/
theorem writeLoop_run (hd : ¬dev.Faulty) : ∀ {n base len copied p m : ℕ} {buf : Bytes} {u : UserSys}
    {mm : Vmm.MmStruct}, OnWritable I E fd ino mm u → Room fd ino p len m u → base < 2 ^ 64 →
    Leading mm base len m → len < n →
    ∃ ret v, UserSys.writeLoop dev fd n base len copied buf u = some (.ok (copied + m, ret), v) ∧
      (m = 0 → len ≠ 0 → ret = some .inval) ∧ Passed I E fd ino p m (u.mem.from' base) u v
  | n + 1, base, len, copied, p, m, buf, u, mm, h, hr, hb, hm, hn => by
    have hle := hm.le
    have hcap := hr.cap
    have hpos := hr.pos
    have hnil : ∀ w : UserSys, w.mem = u.mem → w.sys = u.sys →
        Passed I E fd ino p 0 (u.mem.from' base) u w :=
      fun w hmem hsys => by
        refine ⟨hmem, ?_, ?_⟩
        · rw [hsys, Nat.add_zero, ← hpos]
          exact (FileTable.posed_pos _ _).symm
        · rw [hsys]
          exact .refl h.acct h.file hr.le _
    rw [UserSys.writeLoop]
    by_cases hlen : len = 0
    · obtain rfl : m = 0 := by omega
      rw [if_pos hlen]
      exact ⟨none, u, rfl, fun _ h0 => absurd hlen h0, hnil u rfl rfl⟩
    · rw [if_neg hlen]
      have hal : min UserSys.ioBufSize len = min 4096 len := rfl
      have hlt : min 4096 len < 2 ^ 64 := by omega
      obtain ⟨r, o, hcopy, ⟨mm', rfl, ho, hlist⟩, hrd⟩ :=
        UserSys.copyFromUser_run h.space h.ordered hb hlt (by omega) buf
      rw [hal, Code.bind_ok hcopy]
      cases r with
      | false =>
        have hm0 : m = 0 := by
          by_contra hm0
          have hfirst := hm.first hm0
          exact Bool.false_ne_true (hrd.2 fun q hq => hm.readable q (by omega))
        subst hm0
        exact ⟨some .inval, _, rfl, fun _ _ => rfl, hnil _ rfl rfl⟩
      | true =>
        have hm0 : m ≠ 0 := by
          rintro rfl
          exact hm.next (by omega) fun q hq => by
            rw [Nat.add_zero]
            exact hrd.1 rfl q (by omega)
        have hfirst := hm.first hm0
        have hrest := hm.rest hm0 hlist
        obtain ⟨a, ha⟩ : ∃ a, a = min 4096 len := ⟨_, rfl⟩
        rw [← ha] at hfirst hrest hcopy hrd ⊢
        obtain ⟨u₂, hon, h₂, hr₂, hv₂⟩ := writeChunk_run hd h hr hfirst hle ho
          (buf.copy 0 (u.mem.from' base) a)
        have hwr₂ : Wrote I E u.sys.fs u₂.sys.fs ino p a (u.mem.from' base) :=
          hv₂.wrote.congr fun q hq => by
            rw [Bytes.copy_of_mem (Nat.zero_le q) (by omega), Nat.sub_zero]
        have htop : Pmm.userTop < 2 ^ 64 := by decide
        have hlast := (hrd.1 rfl (a - 1) (by omega)).1.2
        obtain ⟨ret, v, hloop, -, hv⟩ : ∃ ret v, UserSys.writeLoop dev fd n (base + a) (len - a)
            (copied + a) (buf.copy 0 (u.mem.from' base) a) u₂ =
              some (.ok (copied + a + (m - a), ret), v) ∧ _ :=
          writeLoop_run hd h₂ hr₂ (by omega) hrest (by omega)
        rw [Nat.add_assoc, Nat.add_sub_cancel' hfirst] at hloop
        refine ⟨ret, v, ?_, fun h0 => absurd h0 hm0, hv.mem.trans hv₂.mem, ?_, ?_⟩
        · refine (Code.bind_ok hon).trans ((Code.assert_bind (hfirst.trans hle)).trans ?_)
          dsimp only
          rw [if_neg (by omega)]
          exact hloop
        · rw [hv.files, hv₂.files, FileTable.posed_posed, Nat.add_assoc, Nat.add_sub_cancel' hfirst]
        · have hds : p ≤ (u.sys.fs.dinOf ino).size := by
            rw [Acct.dinOf_of_cached h.file.cached]
            exact hr.le
          have hall := hwr₂.trans hv.wrote hds fun q _ => by
            rw [hv₂.mem, Bytes.from', Bytes.from', Nat.add_assoc]
          rwa [Nat.add_sub_cancel' hfirst] at hall

/-! ## The call -/

/-- What `sysfile_write` returns if it has written `m` bytes, of `len`. -/
def writeRet (len m : ℕ) : Except Errno ℕ := if m = 0 ∧ len ≠ 0 then .error .inval else .ok m

theorem copiedOr_writeRet {ret : Option Errno} (h : m = 0 → len ≠ 0 → ret = some .inval)
    (hlen : len ≠ 0) (v : UserSys) :
    UserSys.copiedOr (m, ret) v = some (writeRet len m, v) := by
  unfold UserSys.copiedOr writeRet
  by_cases hm : m = 0
  · rw [if_pos ⟨hm, hlen⟩, h hm hlen]
    dsimp only
    rw [if_neg (not_not.2 hm)]
    rfl
  · rw [if_neg fun e => hm e.1]
    dsimp only
    rw [if_pos hm]
    rfl

theorem sysfileWrite_run (hd : ¬dev.Faulty) (junk : Bytes) (h : OnWritable I E fd ino mm u)
    (hr : Room fd ino p len m u) (hb : base < 2 ^ 64) (hm : Leading mm base len m) :
    ∃ v, UserSys.sysfileWrite dev junk fd base len u = some (writeRet len m, v) ∧
      Passed I E fd ino p m (u.mem.from' base) u v := by
  have hle := hm.le
  by_cases hlen : len = 0
  · obtain rfl : m = 0 := by omega
    refine ⟨u, ?_, rfl, ?_, .refl h.acct h.file hr.le _⟩
    · rw [UserSys.sysfileWrite, if_pos hlen, writeRet, if_neg fun e => e.2 hlen]
      rfl
    · rw [Nat.add_zero, ← hr.pos]
      exact (FileTable.posed_pos _ _).symm
  · have htest : UserSys.onSys (FileSys.fileTestfd fd false true) u = some (.ok true, u) :=
      fileTestfd_run h.opened nofun fun _ => h.writable
    obtain ⟨n, hk⟩ : ∃ n, kmalloc dev u.sys.fs = some (.ok (), u.sys.fs.wait n) :=
      kmalloc_reads.run hd
    obtain ⟨w, hw⟩ : ∃ w : UserSys, w = { u with sys := ⟨u.sys.files, u.sys.fs.wait n⟩ } := ⟨_, rfl⟩
    have hmalloc : UserSys.onSys (FileSys.onFs (kmalloc dev)) u = some (.ok (), w) := by
      have hfs : FileSys.onFs (kmalloc dev) u.sys =
          some (.ok (), ⟨u.sys.files, u.sys.fs.wait n⟩) := Code.on_run hk
      exact hw ▸ Code.on_run hfs
    have hwr : OnWritable I E fd ino mm w := by
      rw [hw]
      exact ⟨h.opened, h.writable, h.acct.wait n,
        ⟨h.file.cached, h.file.type, h.file.blocks, h.file.whole⟩, h.space, h.ordered⟩
    have hroom : Room fd ino p len m w := by
      rw [hw]
      exact ⟨hr.pos, hr.le, hr.cap, hr.need⟩
    obtain ⟨ret, v, hloop, hret, hv⟩ : ∃ ret v,
        UserSys.writeLoop dev fd (len + 1) base len 0 junk w = some (.ok (0 + m, ret), v) ∧ _ :=
      writeLoop_run hd hwr hroom hb hm (Nat.lt_succ_self len)
    refine ⟨v, ?_, ?_, ?_, ?_⟩
    · rw [UserSys.sysfileWrite, if_neg hlen, Code.bind_ok htest, if_pos rfl, Code.bind_ok hmalloc,
        Code.bind_ok hloop, Nat.zero_add]
      exact copiedOr_writeRet hret hlen v
    · rw [hv.mem, hw]
    · rw [hv.files, hw]
    · have hwrote := hv.wrote
      rw [hw] at hwrote
      exact hwrote.wait

/-- Descriptor 3 is open for writing on inode 3; the bytes of the process are their addresses. -/
def writingUser (fs : Sfs) : UserSys where
  sys :=
    ⟨{ openAt 3 with fdArray := fun fd => { (openAt 3).fdArray fd with writable := true } }, fs⟩
  mm := some Vmm.twoAreas
  mem a := UInt8.ofNat a

end Ucore
