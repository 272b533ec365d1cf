/-
  A process that nobody disturbs: what it does with its descriptors is what `FileTable` says.

  * `view`: the code of `FileTable`, on one of the arrays;
  * `vfsOpen_alone`, `fdArrayFree_alone`, …: the parts, of which each waits and goes on;
  * `fileOpen_alone`, `fileClose_alone`, `fileRead_alone`, `filesCloseall_alone`: the calls.
-/
import Ucore.Fs.FileShare

namespace Ucore.SharedFiles

open Function Coop

variable {P S V : Type} [DecidableEq S] {s : SharedFiles P S V} {p : P} {a : S} {ans : Answers V}
  {node : V} {fd : ℕ} {flags : FileTable.OpenFlags}

/-! ## One array -/

/-- The code on one `files_struct`, in the state of all. -/
def view {α : Type} (a : S) (x : FileCode V α) : Code (SharedFiles P S V) Errno α :=
  Code.on (table a) (putTable a) x

theorem lens_table : Code.Lens (table (P := P) (V := V) a) (putTable a) where
  part_put s u := by simp [table, putTable]
  put_part s := by simp [table, putTable]
  put_put s u v := by simp [putTable]

section

variable {α β : Type}

theorem view_pure (b : α) :
    view a (pure b : FileCode V α) = (pure b : Code (SharedFiles P S V) _ _) :=
  lens_table.on_pure b

theorem view_throw (e : Errno) :
    view a (Code.throw e : FileCode V α) = (Code.throw e : Code (SharedFiles P S V) _ _) :=
  lens_table.on_throw e

theorem view_bind (x : FileCode V α) (f : α → FileCode V β) :
    (view a (x >>= f) : Code (SharedFiles P S V) _ _) = view a x >>= fun b => view a (f b) :=
  lens_table.on_bind x f

theorem view_get_bind (f : FileTable V → FileCode V α) :
    (view a (Code.get >>= f) : Code (SharedFiles P S V) _ _) =
      Code.get >>= fun s => view a (f (table a s)) := rfl

theorem view_get : view a (Code.get : FileCode V _) =
    ((Code.get : Code (SharedFiles P S V) _ _) >>= fun s => pure (table a s)) := by
  funext s
  change some (_, putTable a s (table a s)) = some (_, s)
  rw [lens_table.put_part]

theorem view_assert (c : Prop) [Decidable c] :
    view a (Code.assert c : FileCode V Unit) = (Code.assert c : Code (SharedFiles P S V) _ _) :=
  lens_table.on_assert c

theorem view_modify (g : FileTable V → FileTable V) :
    (view a (Code.modify g) : Code (SharedFiles P S V) _ _) =
      Code.modify fun s => putTable a s (g (table a s)) := Code.on_modify g

theorem view_attempt (x : FileCode V α) :
    (view a (Code.attempt x : FileCode V (Except Errno α)) : Code (SharedFiles P S V) _ _) =
      Code.attempt (view a x) := Code.on_attempt x

theorem view_ite (c : Prop) [Decidable c] (x y : FileCode V α) :
    (view a (if c then x else y) : Code (SharedFiles P S V) _ _) =
      if c then view a x else view a y := apply_ite ..

end

variable [DecidableEq V]

/-! ## The counts of inodes -/

theorem vopRefInc_alone : (vopRefInc node).alone ans =
    (view a (FileTable.vopRefInc node) : Code (SharedFiles P S V) _ _) := by
  rw [vopRefInc, alone_modify, FileTable.vopRefInc, view_modify]
  simp [table, putTable]

theorem vopOpenInc_alone : (vopOpenInc node).alone ans =
    (view a (FileTable.vopOpenInc node) : Code (SharedFiles P S V) _ _) := by
  rw [vopOpenInc, alone_modify, FileTable.vopOpenInc, view_modify]
  simp [table, putTable]

theorem vopRefDec_alone : (vopRefDec node).alone ans =
    (view a (FileTable.vopRefDec node) : Code (SharedFiles P S V) _ _) := by
  have hcalled : (called : FilesCode P S V Unit).alone ans = pure () := rfl
  rw [FileTable.vopRefDec, view_get_bind]
  simp only [vopRefDec, alone_bind, alone_get, alone_assert, alone_modify, alone_ite, hcalled,
    alone_pure, ite_self, view_bind, view_assert, view_modify, bind_pure_unit]
  simp only [table, putTable, update_eq_self]
  rfl

theorem vopOpenDec_alone : (vopOpenDec node).alone ans =
    (view a (FileTable.vopOpenDec node) : Code (SharedFiles P S V) _ _) := by
  have hcalled : (called : FilesCode P S V Unit).alone ans = pure () := rfl
  rw [FileTable.vopOpenDec, view_get_bind]
  simp only [vopOpenDec, alone_bind, alone_get, alone_assert, alone_modify, alone_ite, hcalled,
    alone_pure, ite_self, view_bind, view_assert, view_modify, bind_pure_unit]
  simp only [table, putTable, update_eq_self]
  rfl

theorem vfsClose_alone : (vfsClose node).alone ans =
    (view a (FileTable.vfsClose node) : Code (SharedFiles P S V) _ _) := by
  rw [vfsClose, FileTable.vfsClose, alone_bind, view_bind, vopOpenDec_alone, vopRefDec_alone]

/-! ## The array -/

theorem vfsClose_fdArray {t u : FileTable V} {r : Except Errno Unit}
    (h : FileTable.vfsClose node t = some (r, u)) : u.fdArray = t.fdArray := by
  have hkeeps : Code.Keeps (fun v : FileTable V => v.fdArray = t.fdArray)
      (FileTable.vfsClose node) := by
    refine .bind (.bind .get fun _ => .bind (.assert _) fun _ => .modify fun _ => ?_) fun _ =>
      .bind .get fun _ => .bind (.assert _) fun _ => .modify fun _ => ?_
    · exact id
    · exact id
  exact hkeeps t r u rfl h

/-- The item that is freed may be read before its inode is closed. -/
theorem vfsClose_then {t : ℕ → File V} (ht : s.fdArray a = t) :
    ((view a (FileTable.vfsClose node) : Code (SharedFiles P S V) _ _) >>= fun _ =>
        Code.modify fun t => t.setFile a fd { t.fdArray a fd with status := .none }) s =
      (view a (FileTable.vfsClose node) >>= fun _ =>
        view a (FileTable.setFile fd { t fd with status := .none })) s := by
  rcases hx : FileTable.vfsClose node (table a s) with _ | ⟨e | b, u⟩
  · have hno : (view a (FileTable.vfsClose node) : Code (SharedFiles P S V) _ _) s = none := by
      rw [view, Code.on, hx]
      rfl
    rw [Code.bind_none hno, Code.bind_none hno]
  · have hrun : (view a (FileTable.vfsClose node) : Code (SharedFiles P S V) _ _) s = _ :=
      Code.on_run hx
    exact (Code.bind_error hrun).trans (Code.bind_error hrun).symm
  · have hrun : (view a (FileTable.vfsClose node) : Code (SharedFiles P S V) _ _) s = _ :=
      Code.on_run hx
    have hu : u.fdArray = t := (vfsClose_fdArray hx).trans ht
    refine (Code.bind_ok hrun).trans ((Code.bind_ok hrun).trans ?_).symm
    simp [FileTable.setFile, view_modify, Code.modify, setFile, table, putTable, hu]

theorem fdArrayFree_alone : (fdArrayFree a fd).alone ans =
    (view a (FileTable.fdArrayFree fd) : Code (SharedFiles P S V) _ _) := by
  funext s
  rw [FileTable.fdArrayFree, view_get_bind, fdArrayFree, alone_bind, alone_get]
  change (Coop.alone ans _) s = (view a _) s
  simp only [alone_bind, alone_assert, view_bind, view_assert, Code.assert_bind_eq]
  refine if_congr Iff.rfl (if_congr Iff.rfl ?_ rfl) rfl
  unfold closeNode
  by_cases hst : (s.fdArray a fd).status = .closed
  · have hst' : ((table a s).fdArray fd).status = .closed := hst
    rw [if_pos hst, if_pos hst']
    cases hn : (s.fdArray a fd).node with
    | none =>
      have hn' : ((table a s).fdArray fd).node = none := hn
      rw [hn']
      rfl
    | some node =>
      have hn' : ((table a s).fdArray fd).node = some node := hn
      rw [hn']
      simp only [alone_modify, vfsClose_alone (a := a), view_bind]
      refine (vfsClose_then (t := s.fdArray a) rfl).trans ?_
      simp only [hn]
      rfl
  · have hst' : ¬((table a s).fdArray fd).status = .closed := hst
    rw [if_neg hst, if_neg hst']
    simp [FileTable.setFile, view_modify, Code.modify, setFile, table, putTable]

theorem fdArrayRelease_alone : (fdArrayRelease a fd).alone ans =
    (view a (FileTable.fdArrayRelease fd) : Code (SharedFiles P S V) _ _) := by
  rw [FileTable.fdArrayRelease, view_get_bind]
  simp only [fdArrayRelease, FileTable.setFile, alone_bind, alone_get, alone_assert, alone_modify,
    alone_ite, alone_pure, fdArrayFree_alone, view_bind, view_assert, view_modify, view_ite,
    view_pure]
  refine congrArg (Code.get >>= ·) (funext fun s => ?_)
  rfl

theorem fdArrayClose_alone : (fdArrayClose a fd).alone ans =
    (view a (FileTable.fdArrayClose fd) : Code (SharedFiles P S V) _ _) := by
  rw [FileTable.fdArrayClose, view_get_bind]
  simp only [fdArrayClose, FileTable.setFile, alone_bind, alone_get, alone_assert, alone_modify,
    alone_ite, alone_pure, fdArrayFree_alone, view_bind, view_assert, view_modify, view_ite,
    view_pure]
  refine congrArg (Code.get >>= ·) (funext fun s => ?_)
  rfl

/-! ## Opening -/

theorem vfsFind_alone (hcr : flags.creat = false) : (vfsFind flags).alone ans =
    ((view a (FileTable.vfsFind flags ans.toVfsAnswers) : Code (SharedFiles P S V) _ _) >>=
      fun node => pure (node, ans.opened)) := by
  rw [vfsFind, alone_bind, alone_ask, pure_bind, FileTable.vfsFind]
  cases ans.lookup with
  | error e => simp [hcr, view_throw]; rfl
  | ok node =>
    simp only [hcr, Bool.false_eq_true, and_false, if_false, alone_bind, alone_pure, view_bind,
      view_pure, bind_assoc, pure_bind, vopRefInc_alone (a := a)]

theorem vfsOpen_alone (hcr : flags.creat = false) : (vfsOpen flags).alone ans =
    (view a (FileTable.vfsOpen flags ans.toVfsAnswers) : Code (SharedFiles P S V) _ _) := by
  rw [vfsOpen, FileTable.vfsOpen, alone_ite, view_ite, alone_throw, view_throw, alone_bind,
    vfsFind_alone (a := a) hcr, bind_assoc, view_bind]
  refine congrArg (ite _ _) (congrArg (_ >>= ·) (funext fun node => ?_))
  rw [pure_bind]
  cases ans.opened with
  | error e => simp [vopRefDec_alone (a := a), view_bind, view_throw]
  | ok u =>
    simp only [alone_bind, alone_ite, alone_ask, alone_pure, pure_bind, view_bind, view_ite,
      view_pure, vopOpenInc_alone (a := a)]
    refine congrArg (_ >>= ·) (funext fun _ => congrArg (ite _ · _) ?_)
    cases ans.truncate with
    | error e => simp [vopOpenDec_alone (a := a), vopRefDec_alone (a := a), view_bind, view_throw]
    | ok u => simp [view_pure]

theorem openPos_alone : (openPos flags node a fd).alone ans =
    (view a (FileTable.openPos flags ans.toVfsAnswers node fd) :
      Code (SharedFiles P S V) _ _) := by
  rw [openPos, FileTable.openPos, alone_ite, view_ite, alone_pure, view_pure, alone_bind, alone_ask,
    pure_bind]
  refine congrArg (ite _ · _) ?_
  cases ans.size with
  | error e =>
    simp [vfsClose_alone (a := a), fdArrayFree_alone, view_bind, view_throw]
  | ok n => simp [view_pure]

/-! ## The calls -/

omit [DecidableEq S] [DecidableEq V] in
theorem getFdArray_alone (hp : s.filesp p = some a) (hpos : 0 < s.filesCount a) :
    (getFdArray p).alone ans s = some (.ok a, s) := by
  rw [getFdArray, alone_bind, alone_get]
  refine (Code.bind_ok (rfl : Code.get s = some (.ok s, s))).trans ?_
  rw [hp]
  change (Coop.alone ans (assert _ >>= fun _ => pure a)) s = _
  rw [alone_bind, alone_assert]
  exact Code.assert_bind hpos

omit [DecidableEq V] in
theorem fd2file_eq (fd : ℕ) (t : FileTable V) : FileTable.fd2file fd t =
    some (if fd < filesStructNentry ∧ (t.fdArray fd).status = .opened ∧ (t.fdArray fd).fd = fd then
      .ok (t.fdArray fd) else .error .inval, t) := by
  change (ite _ (pure _) (Code.throw _) : FileCode V _) t = _
  split
  · rfl
  · rfl

omit [DecidableEq V] in
theorem fd2file_alone (hp : s.filesp p = some a) (hpos : 0 < s.filesCount a) :
    (fd2file p fd).alone ans s =
      ((view a (FileTable.fd2file fd) : Code (SharedFiles P S V) _ _) >>= fun file =>
        pure (a, file)) s := by
  rw [fd2file, alone_ite, alone_bind, alone_throw]
  by_cases hlt : fd < filesStructNentry
  · rw [if_pos hlt]
    refine (Code.bind_ok (getFdArray_alone hp hpos)).trans ?_
    rw [alone_bind, onTable, alone_atomic]
    rfl
  · have hno := fd2file_eq fd (table a s)
    rw [if_neg fun h => hlt h.1] at hno
    rw [if_neg hlt]
    refine Eq.trans ?_ (Code.bind_error (Code.on_run hno)).symm
    rw [lens_table.put_part]
    rfl

/-- **`file_close`** -/
theorem fileClose_alone (hp : s.filesp p = some a) (hpos : 0 < s.filesCount a) :
    (fileClose p fd).alone ans s = view a (FileTable.fileClose fd) s := by
  rw [fileClose, alone_bind]
  refine (Code.bind_congr_run (fd2file_alone hp hpos)).trans ?_
  rw [bind_assoc, FileTable.fileClose, view_bind]
  simp only [pure_bind, fdArrayClose_alone]

theorem closeallFrom_alone (fds : List ℕ) : (closeallFrom a fds).alone ans =
    (view a (FileTable.filesCloseallFrom fds) : Code (SharedFiles P S V) _ _) := by
  induction fds with
  | nil => rw [closeallFrom, FileTable.filesCloseallFrom, view_pure, alone_pure]
  | cons fd fds ih =>
    rw [closeallFrom, closeOpened, FileTable.filesCloseallFrom, view_get_bind]
    simp only [alone_bind, alone_get, alone_ite, alone_pure, bind_assoc, fdArrayClose_alone, ih]
    refine congrArg (Code.get >>= ·) (funext fun s => ?_)
    change _ = view a (if (s.fdArray a fd).status = .opened then _ else _)
    rw [view_ite]
    by_cases hst : (s.fdArray a fd).status = .opened
    · rw [if_pos hst, if_pos hst, view_bind]
    · rw [if_neg hst, if_neg hst, pure_bind]

/-- **`files_closeall`** -/
theorem filesCloseall_alone (hp : s.filesp p = some a) (hpos : 0 < s.filesCount a) :
    (filesCloseall p).alone ans s = view a FileTable.filesCloseall s := by
  rw [filesCloseall, alone_bind]
  refine (Code.bind_ok (getFdArray_alone hp hpos)).trans ?_
  rw [closeallFrom_alone]
  rfl

omit [DecidableEq V] in
theorem fdArrayAlloc_alone (hp : s.filesp p = some a) (hpos : 0 < s.filesCount a) :
    (fdArrayAlloc p none).alone ans s =
      ((view a FileTable.fdArrayAlloc : Code (SharedFiles P S V) _ _) >>= fun fd =>
        pure (a, fd)) s := by
  rw [fdArrayAlloc, alone_bind]
  refine (Code.bind_ok (getFdArray_alone hp hpos)).trans ?_
  rw [alone_bind, onTable, alone_atomic]
  rfl

/-- **`file_open`**, if no file is created. -/
theorem fileOpen_alone (hp : s.filesp p = some a) (hpos : 0 < s.filesCount a)
    (hcr : flags.creat = false) :
    (fileOpen p flags).alone ans s = view a (FileTable.fileOpen flags ans.toVfsAnswers) s := by
  rw [fileOpen, alone_ite, alone_throw]
  by_cases hmode : flags.readable = false ∧ flags.writable = false
  · rw [if_pos hmode, FileTable.fileOpen, if_pos hmode, view_bind, view_throw]
    rfl
  · rw [if_neg hmode, FileTable.fileOpen, if_neg hmode, alone_bind]
    refine (Code.bind_congr_run (fdArrayAlloc_alone hp hpos)).trans ?_
    rw [bind_assoc]
    change _ = view a (FileTable.fdArrayAlloc >>= _) s
    rw [view_bind]
    simp only [pure_bind]
    refine congrFun (congrArg (_ >>= ·) (funext fun fd => ?_)) s
    rw [alone_bind, alone_attempt, vfsOpen_alone (a := a) hcr, view_bind, view_attempt]
    refine congrArg (_ >>= ·) (funext fun r => ?_)
    cases r with
    | error e =>
      simp only [alone_bind, alone_throw, view_bind, view_throw, fdArrayFree_alone]
    | ok node =>
      simp only [alone_bind, openPos_alone, view_bind, alone_modify, alone_pure, view_pure]
      refine congrArg (_ >>= ·) (funext fun pos => ?_)
      rw [onTable, alone_atomic, view_get, bind_assoc]
      simp only [pure_bind, FileTable.setFile, view_modify]
      rfl

/-- **`file_read`** -/
theorem fileRead_alone (hp : s.filesp p = some a) (hpos : 0 < s.filesCount a) :
    (fileRead p fd).alone ans s = view a (FileTable.fileRead fd ans.moved) s := by
  rw [fileRead, fileMove, alone_bind, alone_attempt, FileTable.fileRead, view_bind, view_attempt]
  have hrun : (view a (FileTable.fd2file fd) : Code (SharedFiles P S V) _ _) s = _ :=
    Code.on_run (fd2file_eq fd (table a s))
  rw [lens_table.put_part] at hrun
  by_cases hopen : fd < filesStructNentry ∧ ((table a s).fdArray fd).status = .opened ∧
      ((table a s).fdArray fd).fd = fd
  · rw [if_pos hopen] at hrun
    have hfd : (fd2file p fd).alone ans s = some (.ok (a, s.fdArray a fd), s) :=
      (fd2file_alone hp hpos).trans (Code.bind_ok hrun)
    refine (Code.attempt_bind hfd).trans (Eq.trans ?_ (Code.attempt_bind hrun).symm)
    change (Coop.alone ans (if File.readable (s.fdArray a fd) = false then _ else _)) s =
      (view a (if (s.fdArray a fd).readable = false then _ else _)) s
    rw [alone_ite, view_ite]
    by_cases hr : (s.fdArray a fd).readable = false
    · rw [if_pos hr, if_pos hr, alone_pure, view_pure]
    · rw [if_neg hr, if_neg hr]
      refine congrFun ?_ s
      simp only [alone_bind, alone_ask, alone_modify, alone_pure, pure_bind, fdArrayRelease_alone,
        view_bind]
      rw [onTable, alone_atomic]
      refine congrArg (_ >>= ·) (funext fun _ => ?_)
      rw [view_get, bind_assoc]
      simp only [pure_bind, view_ite, view_bind, view_pure, FileTable.setFile, view_modify]
      funext t
      change (view a (FileTable.fdArrayRelease fd) >>= _) (advance a fd ans.moved.copied t) =
        (if (t.fdArray a fd).status = .opened then _ else _ : Code (SharedFiles P S V) _ _) t
      by_cases ht : (t.fdArray a fd).status = .opened
      · rw [advance, if_pos ht, if_pos ht]
        rfl
      · rw [advance, if_neg ht, if_neg ht]
  · rw [if_neg hopen] at hrun
    have hfd : (fd2file p fd).alone ans s = some (.error .inval, s) :=
      (fd2file_alone hp hpos).trans (Code.bind_error hrun)
    refine (Code.attempt_bind hfd).trans (Eq.trans ?_ (Code.attempt_bind hrun).symm)
    change (Coop.alone ans (pure _)) s = (view a (pure _)) s
    rw [alone_pure, view_pure]

end Ucore.SharedFiles
