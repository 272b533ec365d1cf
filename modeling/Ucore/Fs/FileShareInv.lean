/-
  What is conserved while processes share descriptors.

  * `Hold`: what a process holds while it waits;
  * `Conserved`: every item of every array is as its status says, and every count is what refers to
    the thing counted;
  * `Conserved.set`, `Conserved.recount`: what is conserved when an item and the counts change.
-/
import Ucore.Fs.FileShare
import Ucore.Lib.Refs
import Mathlib.Data.Finset.Prod
import Mathlib.Data.Fintype.Basic

namespace Ucore.SharedFiles

open Function

/-- What a process holds while it waits: the item that it opens (`FD_INIT`), uses, or frees; a
    reference to an inode, another one to a working directory, and an open of an inode; the
    `files_struct` it works with; and one that nobody else can use, which it makes or destroys, with
    the number of items that are free already. -/
structure Hold (S V : Type) where
  opening : Option (S × ℕ) := none
  busy : Option (S × ℕ) := none
  freeing : Option (S × ℕ) := none
  ref : Option V := none
  cwd : Option V := none
  opn : Option V := none
  files : Option S := none
  owned : Option (S × ℕ) := none

/-- An item, with the numbers of processes that open, use and free it. -/
structure SlotOk {V : Type} (file : File V) (o b f : ℕ) : Prop where
  none : file.status = .none → file.openCount = 0 ∧ o = 0 ∧ b = 0 ∧ f = 0
  init : file.status = .init → file.openCount = 0 ∧ o = 1 ∧ b = 0 ∧ f = 0
  opened : file.status = .opened → file.node ≠ .none ∧ file.openCount = 1 + b ∧ o = 0 ∧ f = 0
  closed : file.status = .closed →
    file.node ≠ .none ∧ file.openCount = b ∧ o = 0 ∧ (b = 0 → f = 1) ∧ (0 < b → f = 0)

namespace SlotOk

variable {V : Type} {file : File V} {o b f : ℕ}

theorem of_none (hst : file.status = .none) (h : file.openCount = 0 ∧ o = 0 ∧ b = 0 ∧ f = 0) :
    SlotOk file o b f := by
  constructor <;> intro e <;> first | exact h | cases hst.symm.trans e

theorem of_init (hst : file.status = .init) (h : file.openCount = 0 ∧ o = 1 ∧ b = 0 ∧ f = 0) :
    SlotOk file o b f := by
  constructor <;> intro e <;> first | exact h | cases hst.symm.trans e

theorem of_opened (hst : file.status = .opened)
    (h : file.node ≠ .none ∧ file.openCount = 1 + b ∧ o = 0 ∧ f = 0) : SlotOk file o b f := by
  constructor <;> intro e <;> first | exact h | cases hst.symm.trans e

theorem of_closed (hst : file.status = .closed)
    (h : file.node ≠ .none ∧ file.openCount = b ∧ o = 0 ∧ (b = 0 → f = 1) ∧ (0 < b → f = 0)) :
    SlotOk file o b f := by
  constructor <;> intro e <;> first | exact h | cases hst.symm.trans e

end SlotOk

/-- The inode that the item has open. -/
def held {V : Type} (file : File V) : Option V :=
  if file.status = .opened ∨ file.status = .closed ∧ 0 < file.openCount then file.node else none

def hits {κ : Type} [DecidableEq κ] (o : Option κ) (x : κ) : ℕ := if o = some x then 1 else 0

section
variable {κ : Type} [DecidableEq κ] {x y : κ}

@[simp] theorem hits_none : hits (none : Option κ) x = 0 := rfl

@[simp] theorem hits_self : hits (some x) x = 1 := if_pos rfl

theorem hits_ne (h : y ≠ x) : hits (some y) x = 0 := if_neg fun e => h (Option.some.inj e)

end

theorem hold_congr {P S V β : Type} [DecidableEq P] {hold : P → Hold S V} {p : P} {h h' : Hold S V}
    {g : Hold S V → β} (hg : g h' = g h) (q : P) :
    g (update hold p h' q) = g (update hold p h q) := by
  by_cases hq : q = p
  · subst hq
    rw [update_self, update_self, hg]
  · rw [update_of_ne hq, update_of_ne hq]

/-- The number of processes that hold `x`. -/
def holders {P S V κ : Type} [Fintype P] [DecidableEq κ] (g : Hold S V → Option κ)
    (hold : P → Hold S V) (x : κ) : ℕ :=
  refs Finset.univ (fun p => g (hold p)) x

section
variable {P S V κ : Type} [Fintype P] [DecidableEq κ] {g : Hold S V → Option κ}
  {hold : P → Hold S V} {p : P} {h h' : Hold S V} {x : κ}

theorem holders_pos (hg : g (hold p) = some x) : 0 < holders g hold x :=
  refs_pos.2 ⟨p, Finset.mem_univ p, hg⟩

theorem holders_eq_zero : holders g hold x = 0 ↔ ∀ p, g (hold p) ≠ some x := by
  simp [holders, refs_eq_zero]

variable [DecidableEq P]

variable (g hold p h h' x) in
theorem holders_move : holders g (update hold p h') x + hits (g h) x =
    holders g (update hold p h) x + hits (g h') x := by
  have hmove := refs_slot (S := Finset.univ) (f := fun q => g (update hold p h q))
    (g := fun q => g (update hold p h' q)) (p := x) (x := p) (Finset.mem_univ p) fun q _ hq => by
      simp only [update_of_ne hq]
  simp only [update_self] at hmove
  exact hmove

theorem holders_congr (hg : hits (g h') x = hits (g h) x) :
    holders g (update hold p h') x = holders g (update hold p h) x := by
  have hmove := holders_move g hold p h h' x
  rw [hg] at hmove
  exact Nat.add_right_cancel hmove

/-- The other holders, and the process itself. -/
theorem holders_add (g : Hold S V → Option κ) (hg : g {} = none) :
    holders g (update hold p h) x = holders g (update hold p {}) x + hits (g h) x := by
  have hmove := holders_move g hold p {} h x
  rwa [hg, hits_none, Nat.add_zero] at hmove

end

variable {P S V : Type} [DecidableEq V] [Fintype S]

def items : Finset (S × ℕ) := Finset.univ ×ˢ Finset.range filesStructNentry

/-- The number of items that have the inode open. -/
def itemsOf (s : SharedFiles P S V) (n : V) : ℕ :=
  refs items (fun z => held (s.fdArray z.1 z.2)) n

/-- The working directory, if somebody uses the `files_struct`. -/
def cwdOf (s : SharedFiles P S V) (a : S) : Option V := if 0 < s.filesCount a then s.pwd a else none

/-- **Nothing is lost.** `base` are the references that devices and the boot directory have.
    References can leak only if files are created. -/
structure Conserved [DecidableEq S] [Fintype P] (creates : Prop) (base : V → ℕ)
    (hold : P → Hold S V) (s : SharedFiles P S V) : Prop where
  slot : ∀ a, ∀ fd < filesStructNentry, SlotOk (s.fdArray a fd)
    (holders Hold.opening hold (a, fd)) (holders Hold.busy hold (a, fd))
    (holders Hold.freeing hold (a, fd))
  own : ∀ a, s.used a = true → ∀ fd < filesStructNentry, (s.fdArray a fd).fd = fd
  opens : ∀ n, s.openCount n = itemsOf s n + holders Hold.opn hold n
  counts : ∃ leak : V → ℕ, (¬creates → ∀ n, leak n = 0) ∧ ∀ n, s.refCount n =
    itemsOf s n + refs Finset.univ (cwdOf s) n + holders Hold.ref hold n + holders Hold.cwd hold n +
      base n + leak n
  files : ∀ a, s.filesCount a = refs Finset.univ s.filesp a
  works : ∀ p a, (hold p).files = some a → s.filesp p = some a
  mine : ∀ p z, (hold p).opening = some z ∨ (hold p).busy = some z ∨ (hold p).freeing = some z →
    s.filesp p = some z.1 ∨ ∃ i, (hold p).owned = some (z.1, i)
  owned : ∀ p a i, (hold p).owned = some (a, i) →
    s.used a = true ∧ s.filesCount a = 0 ∧ ∀ fd < i, (s.fdArray a fd).status = .none
  single : ∀ p q a i j, (hold p).owned = some (a, i) → (hold q).owned = some (a, j) → p = q
  unused : ∀ a, s.used a = false →
    s.filesCount a = 0 ∧ ∀ fd < filesStructNentry, (s.fdArray a fd).status = .none
  kept : ∀ a, s.used a = true → 0 < s.filesCount a ∨ ∃ p i, (hold p).owned = some (a, i)
  running : ∀ p, s.alive p = true → s.filesp p ≠ none ∨ (hold p).owned ≠ none

variable [DecidableEq S] {creates : Prop} {base : V → ℕ} {hold : P → Hold S V}
  {s : SharedFiles P S V} {p q : P} {a : S} {fd : ℕ} {h h' : Hold S V} {v : V} {file : File V}

/-! ## An item changes hands -/

section
omit [DecidableEq V] [Fintype S]

theorem setFile_self : (s.setFile a fd file).fdArray a fd = file := by
  simp [setFile]

theorem setFile_of_ne {b : S} {k : ℕ} (hz : (b, k) ≠ (a, fd)) :
    (s.setFile a fd file).fdArray b k = s.fdArray b k := by
  by_cases hb : b = a
  · subst hb
    have hk : k ≠ fd := fun e => hz (by rw [e])
    simp [setFile, update_of_ne hk]
  · simp [setFile, update_of_ne hb]

end

theorem itemsOf_setFile (hlt : fd < filesStructNentry) (n : V) :
    itemsOf (s.setFile a fd file) n + hits (held (s.fdArray a fd)) n =
      itemsOf s n + hits (held file) n := by
  have hmem : ((a, fd) : S × ℕ) ∈ items := by simp [items, hlt]
  have hmove := refs_slot (f := fun z : S × ℕ => held (s.fdArray z.1 z.2))
    (g := fun z => held ((s.setFile a fd file).fdArray z.1 z.2)) (p := n) hmem
    fun z _ hz => by simp only [setFile_of_ne (b := z.1) (k := z.2) hz]
  simp only [setFile_self] at hmove
  exact hmove

/-- The item `z` becomes `file'`, and the process holds `h'` instead of `h`. -/
structure Moves (h h' : Hold S V) (z : S × ℕ) (file file' : File V) : Prop where
  opening : ∀ y, y ≠ z → hits h'.opening y = hits h.opening y
  busy : ∀ y, y ≠ z → hits h'.busy y = hits h.busy y
  freeing : ∀ y, y ≠ z → hits h'.freeing y = hits h.freeing y
  slot : ∀ o b f, SlotOk file (o + hits h.opening z) (b + hits h.busy z) (f + hits h.freeing z) →
    SlotOk file' (o + hits h'.opening z) (b + hits h'.busy z) (f + hits h'.freeing z)
  opn : ∀ n, hits (held file') n + hits h'.opn n = hits (held file) n + hits h.opn n
  ref : ∀ n, hits (held file') n + hits h'.ref n = hits (held file) n + hits h.ref n
  cwd : h'.cwd = h.cwd
  files : h'.files = h.files
  owned : h'.owned = h.owned
  fd : file'.fd = file.fd
  free : ∀ i, h.owned = some (z.1, i) → z.2 < i → file'.status = .none

theorem hits_pos {κ : Type} [DecidableEq κ] {o : Option κ} {x : κ} (h : hits o x = 1) :
    o = some x := by
  unfold hits at h
  split at h
  · assumption
  · cases h

variable [Fintype P]

namespace Conserved

theorem pos_of_filesp (hC : Conserved creates base hold s) (hp : s.filesp p = some a) :
    0 < s.filesCount a := by
  rw [hC.files]
  exact_mod_cast refs_pos.2 ⟨p, Finset.mem_univ p, hp⟩

variable [DecidableEq P]

theorem set (hC : Conserved creates base (update hold p h) s) (hlt : fd < filesStructNentry)
    (hmine : s.filesp p = some a ∨ ∃ i, h.owned = some (a, i))
    (hm : Moves h h' (a, fd) (s.fdArray a fd) file) :
    Conserved creates base (update hold p h') (s.setFile a fd file) := by
  have howned : ∀ q, (update hold p h' q).owned = (update hold p h q).owned := hold_congr hm.owned
  have hfiles : ∀ q, (update hold p h' q).files = (update hold p h q).files := hold_congr hm.files
  have hused : s.used a = true := by
    rcases hmine with hp | ⟨i, hi⟩
    · by_contra hu
      have hpos := hC.pos_of_filesp hp
      rw [(hC.unused a (Bool.eq_false_iff.2 hu)).1] at hpos
      exact lt_irrefl _ hpos
    · exact (hC.owned p a i (by rw [update_self, hi])).1
  -- a process that owns the array is the one that writes to it
  have hfree : ∀ q i, (update hold p h q).owned = some (a, i) → fd < i → file.status = .none := by
    intro q i hq hi
    rcases hmine with hp | ⟨j, hj⟩
    · have hpos := hC.pos_of_filesp hp
      rw [(hC.owned q a i hq).2.1] at hpos
      exact (lt_irrefl _ hpos).elim
    · have hself : (update hold p h p).owned = some (a, j) := by rw [update_self, hj]
      obtain rfl := hC.single q p a i j hq hself
      rw [update_self] at hq
      exact hm.free i hq hi
  refine ⟨fun b k hk => ?_, fun b hb k hk => ?_, fun n => ?_, ?_, hC.files, ?_, ?_, ?_, ?_, ?_, ?_,
    ?_⟩
  · by_cases hz : (b, k) = (a, fd)
    · obtain ⟨rfl, rfl⟩ := Prod.mk.inj hz
      have h0 := hC.slot b k hk
      rw [holders_add Hold.opening rfl, holders_add Hold.busy rfl,
        holders_add Hold.freeing rfl] at h0
      rw [setFile_self, holders_add Hold.opening rfl, holders_add Hold.busy rfl,
        holders_add Hold.freeing rfl]
      exact hm.slot _ _ _ h0
    · rw [setFile_of_ne hz, holders_congr (hm.opening _ hz), holders_congr (hm.busy _ hz),
        holders_congr (hm.freeing _ hz)]
      exact hC.slot b k hk
  · by_cases hz : (b, k) = (a, fd)
    · obtain ⟨rfl, rfl⟩ := Prod.mk.inj hz
      rw [setFile_self, hm.fd]
      exact hC.own b hb k hk
    · rw [setFile_of_ne hz]
      exact hC.own b hb k hk
  · have hitem := @itemsOf_setFile P S V _ _ _ s a fd file hlt n
    have hmove := holders_move Hold.opn hold p h h' n
    have hn := hC.opens n
    have := hm.opn n
    change s.openCount n = _
    omega
  · obtain ⟨leak, hleak, hcount⟩ := hC.counts
    refine ⟨leak, hleak, fun n => ?_⟩
    have hitem := @itemsOf_setFile P S V _ _ _ s a fd file hlt n
    have hmove := holders_move Hold.ref hold p h h' n
    have hcwd : holders Hold.cwd (update hold p h') n = holders Hold.cwd (update hold p h) n :=
      holders_congr (congrArg (hits · n) hm.cwd)
    have hn := hcount n
    have := hm.ref n
    change s.refCount n = _ + refs Finset.univ (cwdOf s) n + _ + _ + _ + _
    omega
  · intro q b hq
    exact hC.works q b (hfiles q ▸ hq)
  · intro q z hq
    rw [howned]
    by_cases hz : z = (a, fd)
    · subst hz
      by_cases hqp : q = p
      · subst hqp
        rwa [update_self]
      · rw [update_of_ne hqp] at hq
        exact hC.mine q _ (by rwa [update_of_ne hqp])
    · refine hC.mine q z ?_
      by_cases hqp : q = p
      · subst hqp
        rw [update_self] at hq ⊢
        refine hq.imp (fun e => ?_) (Or.imp (fun e => ?_) fun e => ?_)
        · exact hits_pos ((hm.opening z hz).symm.trans (e ▸ hits_self))
        · exact hits_pos ((hm.busy z hz).symm.trans (e ▸ hits_self))
        · exact hits_pos ((hm.freeing z hz).symm.trans (e ▸ hits_self))
      · rw [update_of_ne hqp] at hq ⊢
        exact hq
  · intro q b i hq
    rw [howned] at hq
    obtain ⟨h1, h2, h3⟩ := hC.owned q b i hq
    refine ⟨h1, h2, fun k hk => ?_⟩
    by_cases hz : (b, k) = (a, fd)
    · obtain ⟨rfl, rfl⟩ := Prod.mk.inj hz
      rw [setFile_self]
      exact hfree q i hq hk
    · rw [setFile_of_ne hz]
      exact h3 k hk
  · intro q q' b i j hq hq'
    exact hC.single q q' b i j (howned q ▸ hq) (howned q' ▸ hq')
  · intro b hb
    obtain ⟨h1, h2⟩ := hC.unused b hb
    refine ⟨h1, fun k hk => ?_⟩
    have hne : (b, k) ≠ (a, fd) := fun e => by
      obtain ⟨rfl, -⟩ := Prod.mk.inj e
      cases hused.symm.trans hb
    rw [setFile_of_ne hne]
    exact h2 k hk
  · intro b hb
    refine (hC.kept b hb).imp_right fun ⟨q, i, hq⟩ => ⟨q, i, ?_⟩
    rw [howned]
    exact hq
  · intro q hq
    rw [howned]
    exact hC.running q hq

end Conserved

/-! ## References change hands -/

theorem update_inc {f : V → ℤ} (n : V) :
    update f v (f v + 1) n = f n + hits (some v) n := by
  by_cases hn : n = v
  · subst hn
    simp
  · rw [update_of_ne hn, hits_ne (Ne.symm hn)]
    simp

theorem update_dec {f : V → ℤ} (n : V) :
    update f v (f v - 1) n + hits (some v) n = f n := by
  by_cases hn : n = v
  · subst hn
    simp
  · rw [update_of_ne hn, hits_ne (Ne.symm hn)]
    simp

namespace Conserved

theorem openCount_pos (hC : Conserved creates base hold s) (hr : (hold p).opn = some v) :
    0 < s.openCount v := by
  have := hC.opens v
  have := holders_pos (g := Hold.opn) hr
  omega

theorem refCount_pos (hC : Conserved creates base hold s)
    (hr : (hold p).ref = some v ∨ (hold p).cwd = some v) : 0 < s.refCount v := by
  obtain ⟨leak, -, hcount⟩ := hC.counts
  have := hcount v
  rcases hr with hr | hr
  · have := holders_pos (g := Hold.ref) hr
    omega
  · have := holders_pos (g := Hold.cwd) hr
    omega

variable [DecidableEq P]

theorem works_self (hC : Conserved creates base (update hold p h) s) (hf : h.files = some a) :
    s.filesp p = some a := hC.works p a (by rwa [update_self])

/-- The counts change with what the process holds. -/
theorem recount (hC : Conserved creates base (update hold p h) s) {refCount openCount : V → ℤ}
    (ho : h'.opening = h.opening) (hb : h'.busy = h.busy) (hf : h'.freeing = h.freeing)
    (hfs : ∀ a, h'.files = some a → s.filesp p = some a) (hw : h'.owned = h.owned)
    (hopn : ∀ n, openCount n + hits h.opn n = s.openCount n + hits h'.opn n)
    (href : ∀ n, refCount n + hits h.ref n + hits h.cwd n =
      s.refCount n + hits h'.ref n + hits h'.cwd n) :
    Conserved creates base (update hold p h')
      { s with refCount := refCount, openCount := openCount } := by
  refine ⟨fun b k hk => ?_, hC.own, fun n => ?_, ?_, hC.files, fun q b hq => ?_, fun q z hq => ?_,
    fun q b i hq => ?_, fun q q' b i j hq hq' => ?_, hC.unused, fun b hb => ?_, fun q hq => ?_⟩
  · rw [holders_congr (g := Hold.opening) (congrArg (hits · (b, k)) ho),
      holders_congr (g := Hold.busy) (congrArg (hits · (b, k)) hb),
      holders_congr (g := Hold.freeing) (congrArg (hits · (b, k)) hf)]
    exact hC.slot b k hk
  · have hmove := holders_move Hold.opn hold p h h' n
    have hn := hC.opens n
    have := hopn n
    change openCount n = (itemsOf s n : ℤ) + _
    omega
  · obtain ⟨leak, hleak, hcount⟩ := hC.counts
    refine ⟨leak, hleak, fun n => ?_⟩
    have hmove := holders_move Hold.ref hold p h h' n
    have hcwd := holders_move Hold.cwd hold p h h' n
    have hn := hcount n
    have := href n
    change refCount n = (itemsOf s n : ℤ) + refs Finset.univ (cwdOf s) n + _ + _ + _ + _
    omega
  · by_cases hqp : q = p
    · subst hqp
      rw [update_self] at hq
      exact hfs b hq
    · rw [update_of_ne hqp] at hq
      exact hC.works q b (by rwa [update_of_ne hqp])
  · rw [hold_congr hw]
    rw [hold_congr ho, hold_congr hb, hold_congr hf] at hq
    exact hC.mine q z hq
  · exact hC.owned q b i (hold_congr hw q ▸ hq)
  · exact hC.single q q' b i j (hold_congr hw q ▸ hq) (hold_congr hw q' ▸ hq')
  · simp only [hold_congr hw]
    exact hC.kept b hb
  · rw [hold_congr hw]
    exact hC.running q hq

theorem refInc (hC : Conserved creates base (update hold p h) s) (hr : h.ref = none) :
    Conserved creates base (update hold p { h with ref := some v })
      { s with refCount := update s.refCount v (s.refCount v + 1) } :=
  hC.recount rfl rfl rfl (fun _ => hC.works_self) rfl (fun _ => rfl) fun n => by
    have := update_inc (f := s.refCount) (v := v) n
    simp only [hr, hits_none]
    omega

theorem cwdInc (hC : Conserved creates base (update hold p h) s) (hr : h.cwd = none) :
    Conserved creates base (update hold p { h with cwd := some v })
      { s with refCount := update s.refCount v (s.refCount v + 1) } :=
  hC.recount rfl rfl rfl (fun _ => hC.works_self) rfl (fun _ => rfl) fun n => by
    have := update_inc (f := s.refCount) (v := v) n
    simp only [hr, hits_none]
    omega

theorem refDec (hC : Conserved creates base (update hold p h) s) (hr : h.ref = some v) :
    Conserved creates base (update hold p { h with ref := none })
      { s with refCount := update s.refCount v (s.refCount v - 1) } :=
  hC.recount rfl rfl rfl (fun _ => hC.works_self) rfl (fun _ => rfl) fun n => by
    have := update_dec (f := s.refCount) (v := v) n
    simp only [hr, hits_none]
    omega

theorem cwdDec (hC : Conserved creates base (update hold p h) s) (hr : h.cwd = some v) :
    Conserved creates base (update hold p { h with cwd := none })
      { s with refCount := update s.refCount v (s.refCount v - 1) } :=
  hC.recount rfl rfl rfl (fun _ => hC.works_self) rfl (fun _ => rfl) fun n => by
    have := update_dec (f := s.refCount) (v := v) n
    simp only [hr, hits_none]
    omega

theorem openInc (hC : Conserved creates base (update hold p h) s) (hr : h.opn = none) :
    Conserved creates base (update hold p { h with opn := some v })
      { s with openCount := update s.openCount v (s.openCount v + 1) } :=
  hC.recount rfl rfl rfl (fun _ => hC.works_self) rfl (fun n => by
    have := update_inc (f := s.openCount) (v := v) n
    simp only [hr, hits_none]
    omega) fun _ => rfl

theorem openDec (hC : Conserved creates base (update hold p h) s) (hr : h.opn = some v) :
    Conserved creates base (update hold p { h with opn := none })
      { s with openCount := update s.openCount v (s.openCount v - 1) } :=
  hC.recount rfl rfl rfl (fun _ => hC.works_self) rfl (fun n => by
    have := update_dec (f := s.openCount) (v := v) n
    simp only [hr, hits_none]
    omega) fun _ => rfl

/-- A reference is lost. -/
theorem leak (hC : Conserved creates base (update hold p h) s) (hcr : creates)
    (hr : h.ref = some v) : Conserved creates base (update hold p { h with ref := none }) s := by
  obtain ⟨leak, -, hcount⟩ := hC.counts
  have hdec := hC.refDec hr
  refine ⟨hdec.slot, hC.own, hdec.opens,
    ⟨fun n => leak n + hits (some v) n, fun hn => (hn hcr).elim, fun n => ?_⟩, hC.files,
    hdec.works, hdec.mine, hdec.owned, hdec.single, hC.unused, hdec.kept, hdec.running⟩
  have hmove := holders_move Hold.ref hold p h { h with ref := none } n
  have hcwd : holders Hold.cwd (update hold p { h with ref := none }) n =
      holders Hold.cwd (update hold p h) n := holders_congr rfl
  have hn := hcount n
  simp only [hr, hits_none] at hmove
  change s.refCount n = _ + ((leak n + hits (some v) n : ℕ) : ℤ)
  omega

/-- The process works with its `files_struct`, or has worked with it. -/
theorem setFiles (hC : Conserved creates base (update hold p h) s) {o : Option S}
    (ho : ∀ a, o = some a → s.filesp p = some a) :
    Conserved creates base (update hold p { h with files := o }) s :=
  hC.recount rfl rfl rfl ho rfl (fun _ => rfl) fun _ => rfl

end Conserved

end Ucore.SharedFiles
