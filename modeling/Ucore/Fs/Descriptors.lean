/-
  An open descriptor, and what the functions of `kern/fs/file.c` do with it.

  * `posed`, `held`: the table with another position of a descriptor, and with the descriptor
    acquired;
  * `Open`, `Opened`: the descriptor is open, or open for reading, and stays so.
-/
import Ucore.Fs.File

namespace Ucore.FileTable

open Function

variable {V : Type} {t : FileTable V} {fd : ℕ} {node : V} {pos : ℤ} {c : Chunk}

/-- An item with another position. -/
def posed (t : FileTable V) (fd : ℕ) (pos : ℤ) : FileTable V :=
  { t with fdArray := update t.fdArray fd { t.fdArray fd with pos := pos } }

/-- An item that is acquired, and may have got another position. -/
def held (t : FileTable V) (fd : ℕ) (pos : ℤ) : FileTable V :=
  let file := t.fdArray fd
  { t with
    fdArray := update t.fdArray fd { file with pos := pos, openCount := file.openCount + 1 } }

/-- The descriptor is open. -/
structure Open (t : FileTable V) (fd : ℕ) (node : V) : Prop where
  lt : fd < filesStructNentry
  status : (t.fdArray fd).status = .opened
  own : (t.fdArray fd).fd = fd
  node : (t.fdArray fd).node = some node
  count : 0 < (t.fdArray fd).openCount

namespace Open

variable (h : t.Open fd node)
include h

theorem posed (pos : ℤ) : (t.posed fd pos).Open fd node := by
  refine ⟨h.lt, ?_, ?_, ?_, ?_⟩ <;> simp only [FileTable.posed, update_self]
  · exact h.status
  · exact h.own
  · exact h.node
  · exact h.count

theorem fd2file_run : fd2file fd t = some (.ok (t.fdArray fd), t) := by
  unfold fd2file
  rw [Code.bind_ok (rfl : (Code.get : FileCode V _) t = _), if_pos ⟨h.lt, h.status, h.own⟩]
  rfl

theorem acquire_run : fdArrayAcquire fd t = some (.ok (), t.held fd (t.fdArray fd).pos) := by
  unfold fdArrayAcquire
  rw [Code.bind_ok (rfl : (Code.get : FileCode V _) t = _), Code.assert_bind h.status]
  rfl

variable [DecidableEq V]

theorem release_run (pos : ℤ) :
    fdArrayRelease fd (t.held fd pos) = some (.ok (), t.posed fd pos) := by
  have hc := h.count
  have hheld : (t.held fd pos).fdArray fd = { t.fdArray fd with
      pos := pos
      openCount := (t.fdArray fd).openCount + 1 } := update_self ..
  have hset : setFile fd { (t.held fd pos).fdArray fd with
      openCount := ((t.held fd pos).fdArray fd).openCount - 1 } (t.held fd pos) =
        some (.ok (), t.posed fd pos) := by
    rw [hheld]
    simp [setFile, Code.modify, held, FileTable.posed]
  have hst : ((t.held fd pos).fdArray fd).status = .opened := hheld ▸ h.status
  have hcount : ((t.held fd pos).fdArray fd).openCount = (t.fdArray fd).openCount + 1 := by
    rw [hheld]
  unfold fdArrayRelease
  rw [Code.bind_ok (rfl : (Code.get : FileCode V _) _ = _)]
  refine (Code.assert_bind (.inl hst)).trans ((Code.assert_bind (by omega)).trans ?_)
  refine (Code.bind_ok hset).trans ?_
  rw [if_neg (by omega)]
  rfl

theorem fileSeek_run (pos : ℤ) :
    fileSeek fd pos (.ok ()) t = some (.ok (), t.posed fd pos) := by
  have hset : setFile fd { (t.held fd (t.fdArray fd).pos).fdArray fd with pos := pos }
      (t.held fd (t.fdArray fd).pos) = some (.ok (), t.held fd pos) := by
    simp [setFile, Code.modify, held]
  unfold fileSeek
  rw [Code.bind_ok h.fd2file_run, Code.bind_ok h.acquire_run]
  refine (Code.bind_ok (rfl : (Code.get : FileCode V _) _ = _)).trans ?_
  exact (Code.bind_ok hset).trans (h.release_run pos)

end Open

/-- The descriptor is open for reading. -/
structure Opened (t : FileTable V) (fd : ℕ) (node : V) : Prop where
  lt : fd < filesStructNentry
  status : (t.fdArray fd).status = .opened
  own : (t.fdArray fd).fd = fd
  readable : (t.fdArray fd).readable = true
  node : (t.fdArray fd).node = some node
  count : 0 < (t.fdArray fd).openCount

namespace Opened

variable (h : t.Opened fd node)
include h

theorem isOpen : t.Open fd node := ⟨h.lt, h.status, h.own, h.node, h.count⟩

theorem posed (pos : ℤ) : (t.posed fd pos).Opened fd node := by
  obtain ⟨h1, h2, h3, h4, h5⟩ := h.isOpen.posed pos
  refine ⟨h1, h2, h3, ?_, h4, h5⟩
  simp only [FileTable.posed, update_self]
  exact h.readable

variable [DecidableEq V]

theorem fileRead_run : fileRead fd c t =
    some (.ok (c.copied, c.ret), t.posed fd ((t.fdArray fd).pos + c.copied)) := by
  have hst : ((t.held fd (t.fdArray fd).pos).fdArray fd).status = .opened := by
    simpa [held] using h.status
  have hset : setFile fd { (t.held fd (t.fdArray fd).pos).fdArray fd with
      pos := ((t.held fd (t.fdArray fd).pos).fdArray fd).pos + c.copied }
      (t.held fd (t.fdArray fd).pos) =
        some (.ok (), t.held fd ((t.fdArray fd).pos + c.copied)) := by
    simp [setFile, Code.modify, held]
  unfold fileRead
  rw [Code.attempt_bind h.isOpen.fd2file_run]
  simp only [h.readable, Bool.true_eq_false, if_false]
  rw [Code.bind_ok h.isOpen.acquire_run, Code.bind_ok (rfl : (Code.get : FileCode V _) _ = _),
    if_pos hst]
  exact (Code.bind_ok hset).trans (Code.bind_ok (h.isOpen.release_run _))

end Opened

end Ucore.FileTable
