/-
  How an item of an array changes hands, status by status.

  * `Moves.alloc`, `Moves.opened`, `Moves.acquired`, `Moves.released`, `Moves.closed`,
    `Moves.freed`, …: what a process holds before and after;
  * `Conserved.of_opening`, `Conserved.of_busy`, `Conserved.of_freeing`: what it knows of the item
    that it holds.
-/
import Ucore.Fs.FileShareInv

namespace Ucore.SharedFiles

open Function

variable {P S V : Type} [DecidableEq V] [DecidableEq S] {h : Hold S V} {z : S × ℕ}
  {file file' : File V} {node : V} {a : S} {fd : ℕ}

/-! ## Items -/

section
variable {κ : Type} [DecidableEq κ] {x : κ}

theorem hits_some_of_ne : ∀ y, y ≠ x → hits (some x) y = hits none y := fun _ hy =>
  hits_ne (Ne.symm hy)

end

section
variable {V : Type} {file : File V}

theorem held_none (hst : file.status = .none) : held file = none := by simp [held, hst]

theorem held_init (hst : file.status = .init) : held file = none := by simp [held, hst]

theorem held_opened (hst : file.status = .opened) : held file = file.node := by simp [held, hst]

theorem held_closed (hst : file.status = .closed) (hc : 0 < file.openCount) :
    held file = file.node := by simp [held, hst, hc]

theorem held_zero (hst : file.status = .closed) (hc : file.openCount = 0) : held file = none := by
  simp [held, hst, hc]

end

namespace Moves

theorem alloc (ho : h.opening = none) (hst : file.status = .none) (hst' : file'.status = .init)
    (hc : file'.openCount = file.openCount) (hfd : file'.fd = file.fd)
    (hfree : ∀ i, h.owned = some (z.1, i) → i ≤ z.2) :
    Moves h { h with opening := some z } z file file' where
  opening y hy := by rw [ho]; exact hits_some_of_ne y hy
  busy _ _ := rfl
  freeing _ _ := rfl
  slot o b f hs := by
    have := hs.none hst
    rw [ho, hits_none] at this
    refine .of_init hst' ?_
    simp only [hits_self]
    omega
  opn n := by rw [held_none hst, held_init hst']
  ref n := by rw [held_none hst, held_init hst']
  cwd := rfl
  files := rfl
  owned := rfl
  fd := hfd
  free i hi hlt := absurd (hfree i hi) (by omega)

theorem initFree (ho : h.opening = some z) (hst : file.status = .init) :
    Moves h { h with opening := none } z file { file with status := .none } where
  opening y hy := by rw [ho]; exact (hits_some_of_ne y hy).symm
  busy _ _ := rfl
  freeing _ _ := rfl
  slot o b f hs := by
    have := hs.init hst
    rw [ho, hits_self] at this
    refine .of_none rfl ?_
    simp only [hits_none]
    omega
  opn n := by simp [held, hst]
  ref n := by simp [held, hst]
  cwd := rfl
  files := rfl
  owned := rfl
  fd := rfl
  free _ _ _ := rfl

theorem opened (ho : h.opening = some z) (hr : h.ref = some node) (hn : h.opn = some node)
    (hst : file.status = .init) (hst' : file'.status = .opened)
    (hc : file'.openCount = file.openCount + 1) (hnode : file'.node = some node)
    (hfd : file'.fd = file.fd) (hfree : ∀ i, h.owned = some (z.1, i) → i ≤ z.2) :
    Moves h { h with opening := none, ref := none, opn := none } z file file' where
  opening y hy := by rw [ho]; exact (hits_some_of_ne y hy).symm
  busy _ _ := rfl
  freeing _ _ := rfl
  slot o b f hs := by
    have := hs.init hst
    rw [ho, hits_self] at this
    refine .of_opened hst' ⟨by simp [hnode], ?_⟩
    simp only [hits_none]
    omega
  opn n := by simp [held, hst, hst', hnode, hn]
  ref n := by simp [held, hst, hst', hnode, hr]
  cwd := rfl
  files := rfl
  owned := rfl
  fd := hfd
  free i hi hlt := absurd (hfree i hi) (by omega)

theorem acquired (hb : h.busy = none) (hst : file.status = .opened)
    (hfree : ∀ i, h.owned = some (z.1, i) → i ≤ z.2) :
    Moves h { h with busy := some z } z file { file with openCount := file.openCount + 1 } where
  opening _ _ := rfl
  busy y hy := by rw [hb]; exact hits_some_of_ne y hy
  freeing _ _ := rfl
  slot o b f hs := by
    have := hs.opened hst
    rw [hb, hits_none] at this
    refine .of_opened hst ⟨this.1, ?_⟩
    simp only [hits_self]
    omega
  opn n := by simp [held, hst]
  ref n := by simp [held, hst]
  cwd := rfl
  files := rfl
  owned := rfl
  fd := rfl
  free i hi hlt := absurd (hfree i hi) (by omega)

/-- The item is still used, or still open. -/
theorem released (hb : h.busy = some z) (hpos : 0 < file.openCount) (hmore : file.openCount - 1 ≠ 0)
    (hst : file.status = .opened ∨ file.status = .closed)
    (hfree : ∀ i, h.owned = some (z.1, i) → i ≤ z.2) :
    Moves h { h with busy := none } z file { file with openCount := file.openCount - 1 } := by
  have hheld : held { file with openCount := file.openCount - 1 } = held file := by
    rcases hst with hst | hst
    · simp [held, hst]
    · have hpos' : 0 < file.openCount - 1 := by omega
      simp only [held, hst, hpos, hpos']
  refine ⟨fun _ _ => rfl, fun y hy => ?_, fun _ _ => rfl, fun o b f hs => ?_, fun n => ?_,
    fun n => ?_, rfl, rfl, rfl, rfl, fun i hi hlt => absurd (hfree i hi) (by omega)⟩
  · rw [hb]
    exact (hits_some_of_ne y hy).symm
  · rcases hst with hst | hst
    · have := hs.opened hst
      rw [hb, hits_self] at this
      refine .of_opened hst ⟨this.1, ?_⟩
      simp only [hits_none]
      omega
    · have := hs.closed hst
      rw [hb, hits_self] at this
      refine .of_closed hst ⟨this.1, ?_⟩
      simp only [hits_none]
      omega
  · rw [hheld]
  · rw [hheld]

/-- The item is closed, and this was the last use of it. -/
theorem releasedLast (hb : h.busy = some z) (hf : h.freeing = none) (hr : h.ref = none)
    (hn : h.opn = none) (hlast : file.openCount - 1 = 0) (hst : file.status = .closed)
    (hnode : file.node = some node) (hfree : ∀ i, h.owned = some (z.1, i) → i ≤ z.2) :
    Moves h { h with busy := none, freeing := some z, ref := some node, opn := some node } z file
      { file with openCount := file.openCount - 1 } := by
  have hheld : held file = some node := (held_closed hst (by omega)).trans hnode
  have hheld' : held { file with openCount := file.openCount - 1 } = none := held_zero hst hlast
  refine ⟨fun _ _ => rfl, fun y hy => ?_, fun y hy => ?_, fun o b f hs => ?_, fun n => ?_,
    fun n => ?_, rfl, rfl, rfl, rfl, fun i hi hlt => absurd (hfree i hi) (by omega)⟩
  · rw [hb]
    exact (hits_some_of_ne y hy).symm
  · rw [hf]
    exact hits_some_of_ne y hy
  · have := hs.closed hst
    rw [hb, hf, hits_self, hits_none] at this
    refine .of_closed hst ⟨this.1, ?_⟩
    simp only [hits_none, hits_self]
    omega
  · rw [hheld, hheld', hn]
    exact Nat.add_comm _ _
  · rw [hheld, hheld', hr]
    exact Nat.add_comm _ _

/-- Others still use the item. -/
theorem closed (hst : file.status = .opened) (hpos : 0 < file.openCount)
    (hmore : file.openCount - 1 ≠ 0) (hfree : ∀ i, h.owned = some (z.1, i) → i ≤ z.2) :
    Moves h h z file { file with status := .closed, openCount := file.openCount - 1 } := by
  have hheld : held { file with status := .closed, openCount := file.openCount - 1 } =
      held file := by
    have hpos' : 0 < file.openCount - 1 := by omega
    exact (held_closed rfl hpos').trans (held_opened hst).symm
  refine ⟨fun _ _ => rfl, fun _ _ => rfl, fun _ _ => rfl, fun o b f hs => ?_, fun n => ?_,
    fun n => ?_, rfl, rfl, rfl, rfl, fun i hi hlt => absurd (hfree i hi) (by omega)⟩
  · have := hs.opened hst
    refine .of_closed rfl ⟨this.1, ?_⟩
    simp only
    omega
  · rw [hheld]
  · rw [hheld]

/-- Nobody uses it. -/
theorem closedLast (hst : file.status = .opened) (hf : h.freeing = none) (hr : h.ref = none)
    (hn : h.opn = none) (hlast : file.openCount - 1 = 0) (hnode : file.node = some node)
    (hfree : ∀ i, h.owned = some (z.1, i) → i ≤ z.2) :
    Moves h { h with freeing := some z, ref := some node, opn := some node } z file
      { file with status := .closed, openCount := file.openCount - 1 } := by
  have hheld : held file = some node := (held_opened hst).trans hnode
  have hheld' : held { file with status := .closed, openCount := file.openCount - 1 } = none :=
    held_zero rfl hlast
  refine ⟨fun _ _ => rfl, fun _ _ => rfl, fun y hy => ?_, fun o b f hs => ?_, fun n => ?_,
    fun n => ?_, rfl, rfl, rfl, rfl, fun i hi hlt => absurd (hfree i hi) (by omega)⟩
  · rw [hf]
    exact hits_some_of_ne y hy
  · have := hs.opened hst
    rw [hf, hits_none] at this
    refine .of_closed rfl ⟨this.1, ?_⟩
    simp only [hits_self]
    omega
  · rw [hheld, hheld', hn]
    exact Nat.add_comm _ _
  · rw [hheld, hheld', hr]
    exact Nat.add_comm _ _

theorem freed (hf : h.freeing = some z) (hst : file.status = .closed) (hc : file.openCount = 0) :
    Moves h { h with freeing := none } z file { file with status := .none } := by
  refine ⟨fun _ _ => rfl, fun _ _ => rfl, fun y hy => ?_, fun o b f hs => ?_, fun n => ?_,
    fun n => ?_, rfl, rfl, rfl, rfl, fun _ _ _ => rfl⟩
  · rw [hf]
    exact (hits_some_of_ne y hy).symm
  · have := hs.closed hst
    rw [hf, hits_self] at this
    refine .of_none rfl ?_
    simp only [hits_none]
    omega
  · rw [held_zero hst hc, held_none rfl]
  · rw [held_zero hst hc, held_none rfl]

/-- The item gets another position. -/
theorem posed (pos : ℤ) (hfree : ∀ i, h.owned = some (z.1, i) → i ≤ z.2) :
    Moves h h z file { file with pos := pos } :=
  ⟨fun _ _ => rfl, fun _ _ => rfl, fun _ _ => rfl, fun _ _ _ hs => ⟨hs.1, hs.2, hs.3, hs.4⟩,
    fun _ => rfl, fun _ => rfl, rfl, rfl, rfl, rfl, fun i hi hlt => absurd (hfree i hi) (by omega)⟩

end Moves

/-! ## What a process knows of its item -/

namespace Conserved

variable [DecidableEq P] [Fintype P] [Fintype S] {creates : Prop} {base : V → ℕ}
  {hold : P → Hold S V} {s : SharedFiles P S V} {p : P}

theorem of_opening (hC : Conserved creates base (update hold p h) s) (hlt : fd < filesStructNentry)
    (ho : h.opening = some (a, fd)) :
    (s.fdArray a fd).status = .init ∧ (s.fdArray a fd).openCount = 0 := by
  have hs := hC.slot a fd hlt
  have hpos : 0 < holders Hold.opening (update hold p h) (a, fd) :=
    holders_pos (p := p) (by rwa [update_self])
  cases hst : (s.fdArray a fd).status with
  | init => exact ⟨rfl, (hs.init hst).1⟩
  | none => have := hs.none hst; omega
  | opened => have := hs.opened hst; omega
  | closed => have := hs.closed hst; omega

theorem of_freeing (hC : Conserved creates base (update hold p h) s) (hlt : fd < filesStructNentry)
    (hf : h.freeing = some (a, fd)) :
    (s.fdArray a fd).status = .closed ∧ (s.fdArray a fd).openCount = 0 := by
  have hs := hC.slot a fd hlt
  have hpos : 0 < holders Hold.freeing (update hold p h) (a, fd) :=
    holders_pos (p := p) (by rwa [update_self])
  cases hst : (s.fdArray a fd).status with
  | none => have := hs.none hst; omega
  | init => have := hs.init hst; omega
  | opened => have := hs.opened hst; omega
  | closed => have := hs.closed hst; exact ⟨rfl, by omega⟩

theorem of_busy (hC : Conserved creates base (update hold p h) s) (hlt : fd < filesStructNentry)
    (hb : h.busy = some (a, fd)) :
    ((s.fdArray a fd).status = .opened ∧ 1 < (s.fdArray a fd).openCount ∨
      (s.fdArray a fd).status = .closed) ∧
      0 < (s.fdArray a fd).openCount ∧ ∃ node, (s.fdArray a fd).node = some node := by
  have hs := hC.slot a fd hlt
  have hpos : 0 < holders Hold.busy (update hold p h) (a, fd) :=
    holders_pos (p := p) (by rwa [update_self])
  cases hst : (s.fdArray a fd).status with
  | none => have := hs.none hst; omega
  | init => have := hs.init hst; omega
  | opened =>
    obtain ⟨hn, hc, -⟩ := hs.opened hst
    exact ⟨.inl ⟨rfl, by omega⟩, by omega, Option.ne_none_iff_exists'.1 hn⟩
  | closed =>
    obtain ⟨hn, hc, -⟩ := hs.closed hst
    exact ⟨.inr rfl, by omega, Option.ne_none_iff_exists'.1 hn⟩

omit [DecidableEq P] in
theorem of_opened (hC : Conserved creates base hold s) (hlt : fd < filesStructNentry)
    (hst : (s.fdArray a fd).status = .opened) :
    0 < (s.fdArray a fd).openCount ∧ ∃ node, (s.fdArray a fd).node = some node := by
  obtain ⟨hn, hc, -⟩ := (hC.slot a fd hlt).opened hst
  exact ⟨by omega, Option.ne_none_iff_exists'.1 hn⟩

theorem mine_self (hC : Conserved creates base (update hold p h) s)
    (hz : h.opening = some (a, fd) ∨ h.busy = some (a, fd) ∨ h.freeing = some (a, fd)) :
    s.filesp p = some a ∨ ∃ i, h.owned = some (a, i) := by
  have hm := hC.mine p (a, fd)
  rw [update_self] at hm
  exact hm hz

end Conserved

end Ucore.SharedFiles
