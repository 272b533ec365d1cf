/-
  `do_execve` of `kern/process/proc.c`: what becomes of the descriptors of the process.

  `load_icode` reads the program through a descriptor; its other steps, which only succeed or fail,
  are parameters, and so are the ELF headers that say how much it reads.  An error after
  `files_closeall` ends the process.

  * `filesCloseall_spec`, `fileOpen_spec`, `loadIcode_same`: what the parts do;
  * `doExecve_opened`: the descriptors after a `do_execve` that succeeds;
  * `exec_leaks_descriptor`: one of them is new, as the program is not closed.
-/
import Ucore.Fs.Descriptors
import Mathlib.Data.List.Range

namespace Ucore

open Function

namespace FileTable

/-! ## The code -/

section
variable {V : Type} [DecidableEq V]

/-- What one `load_icode_read` asks for, and what the parts of it answer: `vop_tryseek`, `kmalloc`,
    and for each part that is read `vop_read` and `copy_to_user`. -/
structure LoadRead where
  offset : ℤ
  len : ℕ
  tryseek : Except Errno Unit
  buffer : Bool
  chunks : List (Chunk × Bool)

/-- The loop of `sysfile_read`: the bytes that are copied, and an error; without a further chunk
    there is nothing to read. -/
def sysfileReadLoop (fd : ℕ) : List (Chunk × Bool) → ℕ → ℕ → FileCode V (ℕ × Except Errno Unit)
  | [], len, copied =>
    if len = 0 then pure (copied, .ok ())
    else do
      let r ← fileRead fd ⟨0, .ok ()⟩
      pure (copied, r.2)
  | (c, toUser) :: cs, len, copied =>
    if len = 0 then pure (copied, .ok ())
    else do
      let r ← fileRead fd c
      if r.1 = 0 then pure (copied, r.2)
      else if toUser = false then
        match r.2 with
        | .error e => pure (copied, .error e)
        | .ok _ => pure (copied, .error .inval)
      else do
        Code.assert (r.1 ≤ len)
        match r.2 with
        | .error e => pure (copied + r.1, .error e)
        | .ok _ => sysfileReadLoop fd cs (len - r.1) (copied + r.1)

/-- `load_icode_read` -/
def loadIcodeRead (fd : ℕ) (a : LoadRead) : FileCode V Unit := do
  fileSeek fd a.offset a.tryseek
  if a.len = 0 then pure ()
  else do
    let file ← fd2file fd
    if file.readable = false then Code.throw .inval
    else if a.buffer = false then Code.throw .noMem
    else do
      let r ← sysfileReadLoop fd a.chunks a.len 0
      if r.1 = a.len then pure ()
      else if r.1 ≠ 0 then Code.throw .unspecified
      else
        match r.2 with
        | .error e => Code.throw e
        | .ok _ => Code.throw .unspecified

/-- The steps of `load_icode`; `other` is one that does not use the descriptor. -/
inductive LoadStep where
  | read (a : LoadRead)
  | other (ret : Except Errno Unit)

def loadIcode (fd : ℕ) : List LoadStep → FileCode V Unit
  | [] => pure ()
  | .read a :: steps => do
    loadIcodeRead fd a
    loadIcode fd steps
  | .other (.error e) :: _ => Code.throw e
  | .other (.ok _) :: steps => loadIcode fd steps

/-- `args`: the arguments are copied; `path`: `copy_path` succeeds. -/
structure ExecAnswers (V : Type) where
  args : Except Errno Unit
  path : Except Errno Unit
  vfs : VfsAnswers V
  load : List LoadStep

def doExecve (a : ExecAnswers V) : FileCode V Unit :=
  match a.args with
  | .error e => Code.throw e
  | .ok _ => do
    filesCloseall
    match a.path with
    | .error e => Code.throw e
    | .ok _ => do
      let fd ← fileOpen oRdonly a.vfs
      loadIcode fd a.load

end

end FileTable

/-! ## What the parts do -/

namespace FileTable

section
variable {V : Type} {t t' u : FileTable V} {fd i : ℕ} {file : File V}

/-- Only positions differ. -/
structure Same (t t' : FileTable V) : Prop where
  files : ∀ i, t'.fdArray i = { t.fdArray i with pos := (t'.fdArray i).pos }
  refs : t'.refs = t.refs
  opens : t'.opens = t.opens

theorem Same.refl (t : FileTable V) : Same t t := ⟨fun _ => rfl, rfl, rfl⟩

theorem Same.trans (h : Same t t') (h' : Same t' u) : Same t u := by
  refine ⟨fun i => ?_, h'.refs.trans h.refs, h'.opens.trans h.opens⟩
  rw [h'.files i, h.files i]

theorem same_posed (t : FileTable V) (fd : ℕ) (pos : ℤ) : Same t (t.posed fd pos) := by
  refine ⟨fun i => ?_, rfl, rfl⟩
  unfold posed
  by_cases hi : i = fd
  · subst hi
    dsimp only
    rw [update_self]
  · dsimp only
    rw [update_of_ne hi]

@[simp] theorem setFile_bind_eq_some {α : Type} {f : Unit → FileCode V α} {r : Except Errno α} :
    (setFile fd file >>= f) t = some (r, t') ↔
      f () { t with fdArray := update t.fdArray fd file } = some (r, t') := Iff.rfl

@[simp] theorem setFile_eq_some {r : Except Errno Unit} : setFile fd file t = some (r, t') ↔
    r = .ok () ∧ t' = { t with fdArray := update t.fdArray fd file } := Code.modify_eq_some

theorem fd2file_eq_some {r : Except Errno (File V)} (h : fd2file fd t = some (r, t')) :
    t' = t ∧ ∀ file, r = .ok file →
      file = t.fdArray fd ∧ fd < filesStructNentry ∧ (t.fdArray fd).status = .opened := by
  unfold fd2file at h
  rw [Code.get_bind_eq_some] at h
  split at h
  · rename_i hc
    obtain ⟨rfl, rfl⟩ := Code.pure_eq_some.1 h
    exact ⟨rfl, fun file e => ⟨(Except.ok.inj e).symm, hc.1, hc.2.1⟩⟩
  · obtain ⟨rfl, rfl⟩ := Code.throw_eq_some.1 h
    exact ⟨rfl, nofun⟩

theorem fdArrayAcquire_bind_eq_some {α : Type} {f : Unit → FileCode V α} {r : Except Errno α} :
    (fdArrayAcquire fd >>= f) t = some (r, t') ↔
      (t.fdArray fd).status = .opened ∧ f () (t.held fd (t.fdArray fd).pos) = some (r, t') := by
  unfold fdArrayAcquire
  dsimp only
  rw [bind_assoc, Code.get_bind_eq_some, bind_assoc, Code.assert_bind_eq_some]
  exact Iff.rfl

end

section
variable {V : Type} [DecidableEq V] {t t' u : FileTable V} {fd i : ℕ} {file : File V}

/-- An item that is open is not freed. -/
theorem fdArrayFree_opened {r : Except Errno Unit} (h : fdArrayFree fd t = some (r, t')) :
    (t.fdArray fd).status ≠ .opened := by
  unfold fdArrayFree at h
  rw [Code.get_bind_eq_some, Code.assert_bind_eq_some] at h
  intro ho
  rw [ho] at h
  simp at h

theorem fdArrayRelease_held {pos : ℤ} {r : Except Errno Unit} (ho : (t.fdArray fd).status = .opened)
    (h : fdArrayRelease fd (t.held fd pos) = some (r, t')) : r = .ok () ∧ t' = t.posed fd pos := by
  unfold fdArrayRelease held at h
  simp only [Code.get_bind_eq_some, Code.assert_bind_eq_some, setFile_bind_eq_some, update_self,
    update_idem, Int.add_sub_cancel] at h
  obtain ⟨-, -, h⟩ := h
  split at h
  · have := fdArrayFree_opened h
    simp [ho] at this
  · exact Code.pure_eq_some.1 h

theorem fileSeek_same {pos : ℤ} {a r : Except Errno Unit}
    (h : fileSeek fd pos a t = some (r, t')) : Same t t' := by
  unfold fileSeek at h
  obtain ⟨_, u, h1, hu⟩ | ⟨e, h1, -⟩ := Code.bind_eq_some.1 h
  · obtain rfl := (fd2file_eq_some h1).1
    obtain ⟨ho, hu⟩ := fdArrayAcquire_bind_eq_some.1 hu
    cases a with
    | error e =>
      obtain ⟨_, u', h2, h3⟩ | ⟨e', h2, -⟩ := Code.bind_eq_some.1 hu
      · obtain ⟨-, rfl⟩ := fdArrayRelease_held ho h2
        obtain ⟨-, rfl⟩ := Code.throw_eq_some.1 h3
        exact same_posed ..
      · obtain ⟨h3, -⟩ := fdArrayRelease_held ho h2
        cases h3
    | ok _ =>
      rw [Code.get_bind_eq_some, setFile_bind_eq_some] at hu
      have hheld : { u.held fd (u.fdArray fd).pos with
          fdArray := update (u.held fd (u.fdArray fd).pos).fdArray fd
            { (u.held fd (u.fdArray fd).pos).fdArray fd with pos := pos } } = u.held fd pos := by
        simp [held]
      rw [hheld] at hu
      obtain ⟨-, rfl⟩ := fdArrayRelease_held ho hu
      exact same_posed ..
  · obtain rfl := (fd2file_eq_some h1).1
    exact .refl _

theorem fileRead_same {c : Chunk} {r : Except Errno (ℕ × Except Errno Unit)}
    (h : fileRead fd c t = some (r, t')) : Same t t' := by
  unfold fileRead at h
  obtain ⟨r₁, u, h1, hu⟩ := Code.attempt_bind_eq_some.1 h
  obtain rfl := (fd2file_eq_some h1).1
  cases r₁ with
  | error e =>
    obtain ⟨-, rfl⟩ := Code.pure_eq_some.1 hu
    exact .refl _
  | ok file =>
    dsimp only at hu
    split at hu
    · obtain ⟨-, rfl⟩ := Code.pure_eq_some.1 hu
      exact .refl _
    · obtain ⟨ho, hu⟩ := fdArrayAcquire_bind_eq_some.1 hu
      have hst : ((u.held fd (u.fdArray fd).pos).fdArray fd).status = .opened := by simpa [held]
      rw [Code.get_bind_eq_some, if_pos hst, setFile_bind_eq_some] at hu
      have hheld : { u.held fd (u.fdArray fd).pos with
          fdArray := update (u.held fd (u.fdArray fd).pos).fdArray fd
            { (u.held fd (u.fdArray fd).pos).fdArray fd with
              pos := ((u.held fd (u.fdArray fd).pos).fdArray fd).pos + c.copied } } =
          u.held fd ((u.fdArray fd).pos + c.copied) := by
        simp [held]
      rw [hheld] at hu
      obtain ⟨_, u', h2, h3⟩ | ⟨e, h2, -⟩ := Code.bind_eq_some.1 hu
      · obtain ⟨-, rfl⟩ := fdArrayRelease_held ho h2
        obtain ⟨-, rfl⟩ := Code.pure_eq_some.1 h3
        exact same_posed ..
      · obtain ⟨h3, -⟩ := fdArrayRelease_held ho h2
        cases h3

theorem sysfileReadLoop_same {r : Except Errno (ℕ × Except Errno Unit)} {cs : List (Chunk × Bool)} :
    ∀ {len copied : ℕ} {t : FileTable V},
      sysfileReadLoop fd cs len copied t = some (r, t') → Same t t' := by
  induction cs with
  | nil =>
    intro len copied t h
    unfold sysfileReadLoop at h
    split at h
    · obtain ⟨-, rfl⟩ := Code.pure_eq_some.1 h
      exact .refl _
    · obtain ⟨_, u, h1, hu⟩ | ⟨e, h1, -⟩ := Code.bind_eq_some.1 h
      · obtain ⟨-, rfl⟩ := Code.pure_eq_some.1 hu
        exact fileRead_same h1
      · exact fileRead_same h1
  | cons c cs ih =>
    obtain ⟨c, toUser⟩ := c
    intro len copied t h
    unfold sysfileReadLoop at h
    split at h
    · obtain ⟨-, rfl⟩ := Code.pure_eq_some.1 h
      exact .refl _
    · obtain ⟨⟨n, ret⟩, u, h1, hu⟩ | ⟨e, h1, -⟩ := Code.bind_eq_some.1 h
      · refine (fileRead_same h1).trans ?_
        split at hu
        · obtain ⟨-, rfl⟩ := Code.pure_eq_some.1 hu
          exact .refl _
        · split at hu
          · cases ret <;> obtain ⟨-, rfl⟩ := Code.pure_eq_some.1 hu <;> exact .refl _
          · obtain ⟨-, hu⟩ := Code.assert_bind_eq_some.1 hu
            cases ret with
            | error e =>
              obtain ⟨-, rfl⟩ := Code.pure_eq_some.1 hu
              exact .refl _
            | ok _ => exact ih hu
      · exact fileRead_same h1

theorem loadIcodeRead_same {a : LoadRead} {r : Except Errno Unit}
    (h : loadIcodeRead fd a t = some (r, t')) : Same t t' := by
  unfold loadIcodeRead at h
  obtain ⟨_, u, h1, hu⟩ | ⟨e, h1, -⟩ := Code.bind_eq_some.1 h
  · refine (fileSeek_same h1).trans ?_
    split at hu
    · obtain ⟨-, rfl⟩ := Code.pure_eq_some.1 hu
      exact .refl _
    · obtain ⟨file, u', h2, hu'⟩ | ⟨e, h2, -⟩ := Code.bind_eq_some.1 hu
      · obtain rfl := (fd2file_eq_some h2).1
        split at hu'
        · obtain ⟨-, rfl⟩ := Code.throw_eq_some.1 hu'
          exact .refl _
        · split at hu'
          · obtain ⟨-, rfl⟩ := Code.throw_eq_some.1 hu'
            exact .refl _
          · obtain ⟨⟨n, ret⟩, u, h3, hu⟩ | ⟨e, h3, -⟩ := Code.bind_eq_some.1 hu'
            · refine (sysfileReadLoop_same h3).trans ?_
              split at hu
              · obtain ⟨-, rfl⟩ := Code.pure_eq_some.1 hu
                exact .refl _
              · split at hu
                · obtain ⟨-, rfl⟩ := Code.throw_eq_some.1 hu
                  exact .refl _
                · cases ret <;> obtain ⟨-, rfl⟩ := Code.throw_eq_some.1 hu <;> exact .refl _
            · exact sysfileReadLoop_same h3
      · obtain rfl := (fd2file_eq_some h2).1
        exact .refl _
  · exact fileSeek_same h1

/-- **`load_icode`** changes only the position of its descriptor. -/
theorem loadIcode_same {r : Except Errno Unit} {steps : List LoadStep} :
    ∀ {t : FileTable V}, loadIcode fd steps t = some (r, t') → Same t t' := by
  induction steps with
  | nil =>
    intro t h
    obtain ⟨-, rfl⟩ := Code.pure_eq_some.1 h
    exact .refl _
  | cons step steps ih =>
    intro t h
    cases step with
    | read a =>
      obtain ⟨_, u, h1, hu⟩ | ⟨e, h1, -⟩ := Code.bind_eq_some.1 h
      · exact (loadIcodeRead_same h1).trans (ih hu)
      · exact loadIcodeRead_same h1
    | other ret =>
      cases ret with
      | error e =>
        obtain ⟨-, rfl⟩ := Code.throw_eq_some.1 h
        exact .refl _
      | ok _ => exact ih h

/-! ### `files_closeall` -/

theorem fdArrayFree_spec {r : Except Errno Unit} (h : fdArrayFree fd t = some (r, t')) :
    r = .ok () ∧ (t'.fdArray fd).status = .none ∧ ∀ i, i ≠ fd → t'.fdArray i = t.fdArray i := by
  unfold fdArrayFree at h
  rw [Code.get_bind_eq_some, Code.assert_bind_eq_some, Code.assert_bind_eq_some] at h
  obtain ⟨-, -, h⟩ := h
  split at h
  · cases hn : (t.fdArray fd).node with
    | none =>
      rw [hn] at h
      exact absurd h (by simp)
    | some node =>
      rw [hn] at h
      have hclose : ∀ {r' u}, vfsClose node t = some (r', u) →
          r' = .ok () ∧ u.fdArray = t.fdArray := fun {r' u} hc => by
        simp only [vfsClose, vopOpenDec, vopRefDec, bind_assoc, Code.get_bind_eq_some,
          Code.assert_bind_eq_some, Code.modify_bind_eq_some, Code.modify_eq_some] at hc
        obtain ⟨-, -, rfl, rfl⟩ := hc
        exact ⟨rfl, rfl⟩
      obtain ⟨_, u, h1, hu⟩ | ⟨e, h1, -⟩ := Code.bind_eq_some.1 h
      · obtain ⟨rfl, rfl⟩ := setFile_eq_some.1 hu
        obtain ⟨-, h2⟩ := hclose h1
        refine ⟨rfl, by simp, fun i hi => ?_⟩
        dsimp only
        rw [update_of_ne hi, h2]
      · cases (hclose h1).1
  · obtain ⟨rfl, rfl⟩ := setFile_eq_some.1 h
    exact ⟨rfl, by simp, fun i hi => update_of_ne hi _ _⟩

theorem fdArrayClose_spec {r : Except Errno Unit} (h : fdArrayClose fd t = some (r, t')) :
    r = .ok () ∧ (t'.fdArray fd).status ≠ .opened ∧ ∀ i, i ≠ fd → t'.fdArray i = t.fdArray i := by
  unfold fdArrayClose at h
  rw [Code.get_bind_eq_some, Code.assert_bind_eq_some, Code.assert_bind_eq_some,
    setFile_bind_eq_some] at h
  obtain ⟨-, -, h⟩ := h
  split at h
  · obtain ⟨hr, h1, h2⟩ := fdArrayFree_spec h
    refine ⟨hr, by simp [h1], fun i hi => (h2 i hi).trans (update_of_ne hi _ _)⟩
  · obtain ⟨rfl, rfl⟩ := Code.pure_eq_some.1 h
    exact ⟨rfl, by simp, fun i hi => update_of_ne hi _ _⟩

/-- The loop closes the descriptors of the list, and does nothing to others. -/
theorem filesCloseallFrom_spec {r : Except Errno Unit} {fds : List ℕ} :
    ∀ {t : FileTable V}, filesCloseallFrom fds t = some (r, t') → r = .ok () ∧
      (∀ i ∈ fds, (t'.fdArray i).status ≠ .opened) ∧
      ∀ i, i ∉ fds → t'.fdArray i = t.fdArray i := by
  induction fds with
  | nil =>
    intro t h
    obtain ⟨rfl, rfl⟩ := Code.pure_eq_some.1 h
    exact ⟨rfl, by simp, fun _ _ => rfl⟩
  | cons fd fds ih =>
    intro t h
    unfold filesCloseallFrom at h
    rw [Code.get_bind_eq_some] at h
    -- what is closed stays closed
    have hrest : ∀ {u : FileTable V}, (u.fdArray fd).status ≠ .opened →
        (∀ i, i ≠ fd → u.fdArray i = t.fdArray i) → filesCloseallFrom fds u = some (r, t') →
        r = .ok () ∧ (∀ i ∈ fd :: fds, (t'.fdArray i).status ≠ .opened) ∧
          ∀ i, i ∉ fd :: fds → t'.fdArray i = t.fdArray i := fun {u} hn ho hu => by
      obtain ⟨hr, h1, h2⟩ := ih hu
      refine ⟨hr, fun i hi => ?_, fun i hi => ?_⟩
      · by_cases hif : i ∈ fds
        · exact h1 i hif
        · obtain rfl | hi := List.mem_cons.1 hi
          · rwa [h2 i hif]
          · exact absurd hi hif
      · rw [List.mem_cons, not_or] at hi
        rw [h2 i hi.2, ho i hi.1]
    split at h
    · obtain ⟨_, u, h1, hu⟩ | ⟨e, h1, -⟩ := Code.bind_eq_some.1 h
      · obtain ⟨-, h2, h3⟩ := fdArrayClose_spec h1
        exact hrest h2 h3 hu
      · cases (fdArrayClose_spec h1).1
    · rename_i hn
      exact hrest hn (fun _ _ => rfl) h

/-- **`files_closeall`** -/
theorem filesCloseall_spec {r : Except Errno Unit} (h : filesCloseall t = some (r, t')) :
    r = .ok () ∧ (∀ i, 2 ≤ i → i < filesStructNentry → (t'.fdArray i).status ≠ .opened) ∧
      ∀ i < 2, t'.fdArray i = t.fdArray i := by
  obtain ⟨hr, h1, h2⟩ := filesCloseallFrom_spec h
  have hn : 2 + (filesStructNentry - 2) = filesStructNentry := by decide
  have hmem : ∀ i, i ∈ List.range' 2 (filesStructNentry - 2) ↔ 2 ≤ i ∧ i < filesStructNentry :=
    fun i => by rw [List.mem_range'_1, hn]
  exact ⟨hr, fun i h2 hlt => h1 i ((hmem i).2 ⟨h2, hlt⟩), fun i hi => h2 i fun hm => by
    have := ((hmem i).1 hm).1
    omega⟩

/-! ### `file_open` -/

omit [DecidableEq V] in
theorem fdArrayAlloc_spec (h : fdArrayAlloc t = some (.ok fd, t')) : fd < filesStructNentry ∧
    (t.fdArray fd).status = .none ∧ (t.fdArray fd).openCount = 0 ∧ t'.refs = t.refs ∧
      t'.opens = t.opens ∧
      t'.fdArray = update t.fdArray fd { t.fdArray fd with status := .init, node := none } := by
  unfold fdArrayAlloc at h
  rw [Code.get_bind_eq_some] at h
  cases hf : (List.range filesStructNentry).find? fun fd => (t.fdArray fd).status = .none with
  | none =>
    rw [hf] at h
    cases (Code.throw_eq_some.1 h).1
  | some fd' =>
    rw [hf] at h
    dsimp only at h
    rw [Code.assert_bind_eq_some, setFile_bind_eq_some] at h
    obtain ⟨h0, h⟩ := h
    obtain ⟨hfd, rfl⟩ := Code.pure_eq_some.1 h
    cases hfd
    exact ⟨List.mem_range.1 (List.mem_of_find?_eq_some hf), by simpa using List.find?_some hf, h0,
      rfl, rfl, rfl⟩

/-- `vfs_open` for reading adds an open and a reference. -/
theorem vfsOpen_rdonly {a : VfsAnswers V} {node : V}
    (h : vfsOpen oRdonly a t = some (.ok node, t')) : t' = { t with
      refs := update t.refs node (t.refs node + 1)
      opens := update t.opens node (t.opens node + 1) } := by
  have hfind : ∀ {u v}, vfsFind oRdonly a t = some (.ok u, v) →
      v = { t with refs := update t.refs u (t.refs u + 1) } := fun {u v} hv => by
    unfold vfsFind at hv
    cases hl : a.lookup with
    | error e =>
      rw [hl] at hv
      dsimp only at hv
      rw [if_neg (by simp [oRdonly])] at hv
      cases (Code.throw_eq_some.1 hv).1
    | ok n =>
      rw [hl] at hv
      dsimp only at hv
      rw [if_neg (by simp [oRdonly]), vopRefInc, Code.modify_bind_eq_some] at hv
      obtain ⟨hn, rfl⟩ := Code.pure_eq_some.1 hv
      cases hn
      rfl
  unfold vfsOpen at h
  rw [if_neg (by simp [oRdonly])] at h
  obtain ⟨n, u, h1, hu⟩ | ⟨e, -, h2⟩ := Code.bind_eq_some.1 h
  · obtain rfl := hfind h1
    cases ho : a.opened with
    | error e =>
      rw [ho] at hu
      obtain ⟨_, v, -, hv⟩ | ⟨e, -, h2⟩ := Code.bind_eq_some.1 hu
      · cases (Code.throw_eq_some.1 hv).1
      · cases h2
    | ok _ =>
      rw [ho] at hu
      dsimp only at hu
      rw [vopOpenInc, Code.modify_bind_eq_some, if_neg (by simp [oRdonly])] at hu
      obtain ⟨hn, rfl⟩ := Code.pure_eq_some.1 hu
      cases hn
      rfl
  · cases h2

/-- **`file_open`** for reading: a free descriptor is opened. -/
theorem fileOpen_spec {a : VfsAnswers V} (h : fileOpen oRdonly a t = some (.ok fd, t')) :
    fd < filesStructNentry ∧ (t.fdArray fd).status = .none ∧ (t'.fdArray fd).status = .opened ∧
      (∀ i, i ≠ fd → t'.fdArray i = t.fdArray i) ∧ ∃ node, (t'.fdArray fd).node = some node ∧
        t'.refs = update t.refs node (t.refs node + 1) ∧
        t'.opens = update t.opens node (t.opens node + 1) := by
  unfold fileOpen at h
  dsimp only at h
  rw [if_neg (by simp [oRdonly])] at h
  obtain ⟨fd', u, h1, hu⟩ | ⟨e, -, h2⟩ := Code.bind_eq_some.1 h
  · obtain ⟨hlt, hnone, -, hrefs, hopens, harr⟩ := fdArrayAlloc_spec h1
    obtain ⟨r, v, h3, hv⟩ := Code.attempt_bind_eq_some.1 hu
    cases r with
    | error e =>
      obtain ⟨_, w, -, hw⟩ | ⟨e, -, h2⟩ := Code.bind_eq_some.1 hv
      · cases (Code.throw_eq_some.1 hw).1
      · cases h2
    | ok node =>
      obtain rfl := vfsOpen_rdonly h3
      have hpos : (openPos oRdonly a node fd' : FileCode V ℤ) = pure 0 := by
        unfold openPos
        exact if_neg (by simp [oRdonly])
      dsimp only at hv
      rw [hpos, pure_bind, Code.get_bind_eq_some, setFile_bind_eq_some] at hv
      unfold fdArrayOpen at hv
      simp only [bind_assoc, Code.get_bind_eq_some, Code.assert_bind_eq_some, setFile_bind_eq_some,
        update_self, update_idem, harr] at hv
      obtain ⟨-, hv⟩ := hv
      obtain ⟨hfd, rfl⟩ := Code.pure_eq_some.1 hv
      cases hfd
      refine ⟨hlt, hnone, by simp, fun i hi => update_of_ne hi _ _, node, by simp, ?_, ?_⟩
      · rw [hrefs]
      · rw [hopens]
  · cases h2

/-! ## `do_execve` -/

/-- **The descriptors after `do_execve`** are those that `files_closeall` keeps, and that of the
    program, which was free; it holds a reference and an open of the program's inode. -/
theorem doExecve_opened {a : ExecAnswers V} (h : doExecve a t = some (.ok (), t')) :
    ∃ fd < filesStructNentry, ¬(fd < 2 ∧ (t.fdArray fd).status = .opened) ∧
      (∀ i < filesStructNentry, (t'.fdArray i).status = .opened ↔
        i = fd ∨ i < 2 ∧ (t.fdArray i).status = .opened) ∧
      ∃ u r node, filesCloseall t = some (r, u) ∧ (t'.fdArray fd).node = some node ∧
        t'.refs = update u.refs node (u.refs node + 1) ∧
        t'.opens = update u.opens node (u.opens node + 1) := by
  unfold doExecve at h
  cases hargs : a.args with
  | error e =>
    rw [hargs] at h
    cases (Code.throw_eq_some.1 h).1
  | ok _ =>
    rw [hargs] at h
    obtain ⟨_, u, h1, hu⟩ | ⟨e, -, h2⟩ := Code.bind_eq_some.1 h
    · obtain ⟨-, hclosed, hkept⟩ := filesCloseall_spec h1
      cases hpath : a.path with
      | error e =>
        rw [hpath] at hu
        cases (Code.throw_eq_some.1 hu).1
      | ok _ =>
        rw [hpath] at hu
        obtain ⟨fd, v, h2, hv⟩ | ⟨e, -, h2⟩ := Code.bind_eq_some.1 hu
        · obtain ⟨hlt, hnone, hopen, hother, node, hnode, hrefs, hopens⟩ := fileOpen_spec h2
          have hs := loadIcode_same hv
          have hstatus : ∀ i, (t'.fdArray i).status = (v.fdArray i).status := fun i => by
            rw [hs.files i]
          refine ⟨fd, hlt, ?_, fun i hi => ?_, u, _, node, h1, ?_, hs.refs.trans hrefs,
            hs.opens.trans hopens⟩
          · rintro ⟨h2, h3⟩
            rw [hkept fd h2, h3] at hnone
            cases hnone
          · rw [hstatus i]
            by_cases hif : i = fd
            · simp [hif, hopen]
            · rw [hother i hif]
              by_cases h2 : i < 2
              · simp [hif, h2, hkept i h2]
              · simp [hif, h2, hclosed i (not_lt.1 h2) hi]
          · rw [hs.files fd]
            exact hnode
        · cases h2
    · cases h2

/-- No descriptor is open that was not kept, or that was not open before. -/
def NoLeak (t t' : FileTable V) : Prop :=
  ∀ fd < filesStructNentry, (t'.fdArray fd).status = .opened →
    fd < 2 ∧ (t.fdArray fd).status = .opened

/-- **A `do_execve` that succeeds leaks a descriptor.** -/
theorem exec_leaks_descriptor {a : ExecAnswers V} (h : doExecve a t = some (.ok (), t')) :
    ¬NoLeak t t' := by
  obtain ⟨fd, hlt, hnew, hopen, -⟩ := doExecve_opened h
  exact fun hno => hnew (hno fd hlt ((hopen fd hlt).2 (.inl rfl)))

end

/-! ### A concrete `do_execve` -/

/-- Descriptors 0 and 1 are open. -/
def stdio : FileTable ℕ where
  fdArray fd := if fd < 2 then ⟨.opened, true, true, fd, 0, some fd, 1⟩
    else ⟨.none, false, false, fd, 0, none, 0⟩
  refs node := if node < 2 then 1 else 0
  opens node := if node < 2 then 1 else 0

/-- The program is inode 7; its ELF header is read, and then 40 bytes of it. -/
def execSeven : ExecAnswers ℕ where
  args := .ok ()
  path := .ok ()
  vfs := ⟨.ok 7, .error .inval, .error .inval, .ok (), .ok (), .ok 0⟩
  load := [.other (.ok ()), .read ⟨0, 64, .ok (), true, [(⟨64, .ok ()⟩, true)]⟩, .other (.ok ()),
    .read ⟨4096, 40, .ok (), true, [(⟨40, .ok ()⟩, true)]⟩]

theorem doExecve_seven : ∃ t', doExecve execSeven stdio = some (.ok (), t') ∧
    (t'.fdArray 2).status = .opened ∧ t'.refs 7 = 1 ∧ t'.opens 7 = 1 := by
  have hrun : ((doExecve execSeven stdio).map fun r =>
      (r.1.isOk, (r.2.fdArray 2).status, r.2.refs 7, r.2.opens 7)) = some
        (true, .opened, 1, 1) := by
    decide +kernel
  obtain ⟨⟨r, t'⟩, h, hr⟩ := Option.map_eq_some_iff.1 hrun
  simp only [Prod.mk.injEq] at hr
  obtain ⟨hok, h2, h3, h4⟩ := hr
  cases r with
  | error e => cases hok
  | ok _ => exact ⟨t', h, h2, h3, h4⟩

theorem exec_leaks_descriptor_seven : ∃ t', doExecve execSeven stdio = some (.ok (), t') ∧
    ¬NoLeak stdio t' := by
  obtain ⟨t', h, -⟩ := doExecve_seven
  exact ⟨t', h, exec_leaks_descriptor h⟩

/-- Descriptor 2 was free, and is the program's now. -/
theorem exec_opens_two : ∃ t', doExecve execSeven stdio = some (.ok (), t') ∧
    (stdio.fdArray 2).status = .none ∧ (t'.fdArray 2).status = .opened ∧ t'.refs 7 = 1 ∧
      t'.opens 7 = 1 ∧ ¬NoLeak stdio t' := by
  obtain ⟨t', h, h2, h3, h4⟩ := doExecve_seven
  refine ⟨t', h, by decide, h2, h3, h4, fun hno => ?_⟩
  have := (hno 2 (by decide) h2).1
  omega

end FileTable

end Ucore
