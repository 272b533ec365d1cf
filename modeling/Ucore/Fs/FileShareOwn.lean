/-
  How a `files_struct` changes hands: it is made, gets a process, loses one, and is destroyed.

  * `Handover`: the arrays stay as they are, and one process holds something else;
  * `Conserved.create`, `Conserved.adopt`, `Conserved.put`, `Conserved.putLast`,
    `Conserved.progress`, `Conserved.kfree`: the steps of its life;
  * `Conserved.swapPwd`: it gets another working directory.
-/
import Ucore.Fs.FileShareInv

namespace Ucore.SharedFiles

open Function

variable {P S V : Type} [DecidableEq V] [Fintype S] [DecidableEq S] [Fintype P] {creates : Prop}
  {base : V → ℕ} {hold : P → Hold S V} {s : SharedFiles P S V} {p q : P} {a : S} {fd : ℕ}
  {h w : Hold S V} {node : V} {file : File V}

/-- The arrays and the counts of the inodes stay as they are; `p` holds `w` instead of `h`. -/
structure Handover (s t : SharedFiles P S V) (p : P) (h w : Hold S V) : Prop where
  fdArray : t.fdArray = s.fdArray
  openCount : t.openCount = s.openCount
  refCount : t.refCount = s.refCount
  opening : w.opening = h.opening
  busy : w.busy = h.busy
  freeing : w.freeing = h.freeing
  ref : w.ref = h.ref
  opn : w.opn = h.opn
  cwd : ∀ n, refs Finset.univ (cwdOf t) n + hits w.cwd n =
    refs Finset.univ (cwdOf s) n + hits h.cwd n
  own : ∀ b, t.used b = true → ∀ fd < filesStructNentry, (s.fdArray b fd).fd = fd
  files : ∀ b, t.filesCount b = refs Finset.univ t.filesp b
  filesp : ∀ q, q ≠ p → ∀ b, s.filesp q = some b → t.filesp q = some b
  works : ∀ b, w.files = some b → t.filesp p = some b
  mine : ∀ z, h.opening = some z ∨ h.busy = some z ∨ h.freeing = some z →
    s.filesp p = some z.1 ∨ (∃ i, h.owned = some (z.1, i)) →
    t.filesp p = some z.1 ∨ ∃ i, w.owned = some (z.1, i)
  owned : ∀ b i, w.owned = some (b, i) →
    t.used b = true ∧ t.filesCount b = 0 ∧ ∀ fd < i, (s.fdArray b fd).status = .none
  single : ∀ b i, w.owned = some (b, i) → s.used b = true → s.filesCount b = 0 →
    ∃ j, h.owned = some (b, j)
  others : ∀ b, s.used b = true → s.filesCount b = 0 → (∀ i, h.owned ≠ some (b, i)) →
    t.used b = true ∧ t.filesCount b = 0
  unused : ∀ b, t.used b = false →
    t.filesCount b = 0 ∧ ∀ fd < filesStructNentry, (s.fdArray b fd).status = .none
  kept : ∀ b, t.used b = true → 0 < t.filesCount b ∨ (∃ i, w.owned = some (b, i)) ∨
    s.used b = true ∧ t.filesCount b = s.filesCount b ∧ ∀ i, h.owned ≠ some (b, i)
  running : ∀ q, q ≠ p → t.alive q = true → s.alive q = true ∨ t.filesp q ≠ none
  runs : t.alive p = true → t.filesp p ≠ none ∨ w.owned ≠ none

namespace Conserved

/-- The working directory of a `files_struct` that nobody uses yet. -/
theorem setPwd (hC : Conserved creates base hold s) (ha : s.filesCount a = 0) (o : Option V) :
    Conserved creates base hold { s with pwd := update s.pwd a o } := by
  have hcwd : cwdOf { s with pwd := update s.pwd a o } = cwdOf s := funext fun b => by
    by_cases hb : b = a
    · subst hb
      simp [cwdOf, ha]
    · simp [cwdOf, update_of_ne hb]
  refine ⟨hC.slot, hC.own, hC.opens, ?_, hC.files, hC.works, hC.mine, hC.owned, hC.single,
    hC.unused, hC.kept, hC.running⟩
  rw [hcwd]
  exact hC.counts

/-- The memory of a `files_struct` that is to be made. -/
theorem initialise (hC : Conserved creates base hold s) (hfresh : s.used a = false) :
    Conserved creates base hold { s with
      pwd := update s.pwd a none
      filesCount := update s.filesCount a 0
      fdArray := update s.fdArray a (fdArrayInit (s.fdArray a)) } := by
  obtain ⟨h0, hnone⟩ := hC.unused a hfresh
  have hcount : update s.filesCount a 0 = s.filesCount := by rw [← h0, update_eq_self]
  have hinit : ∀ k < filesStructNentry, (fdArrayInit (s.fdArray a) k).status = .none ∧
      (fdArrayInit (s.fdArray a) k).openCount = 0 := fun k hk => by simp [fdArrayInit, hk]
  have hst : ∀ b, ∀ k < filesStructNentry, (s.fdArray b k).status = .none →
      (update s.fdArray a (fdArrayInit (s.fdArray a)) b k).status = .none := fun b k hk hb => by
    by_cases hba : b = a
    · subst hba
      rw [update_self]
      exact (hinit k hk).1
    · rwa [update_of_ne hba]
  have hitems : ∀ n, refs items
      (fun z => held (update s.fdArray a (fdArrayInit (s.fdArray a)) z.1 z.2)) n = itemsOf s n := by
    refine fun n => refs_congr fun z hz => ?_
    have hk : z.2 < filesStructNentry := by simpa [items] using hz
    by_cases hba : z.1 = a
    · rw [hba, update_self, held, held, hnone _ hk, (hinit _ hk).1]
      simp
    · rw [update_of_ne hba]
  have hcwd : ∀ n, refs Finset.univ
      (fun b => if 0 < update s.filesCount a 0 b then update s.pwd a none b else none) n =
        refs Finset.univ (cwdOf s) n := by
    refine fun n => refs_congr fun b _ => ?_
    by_cases hba : b = a
    · subst hba
      simp [cwdOf, h0]
    · simp [cwdOf, update_of_ne hba]
  refine ⟨fun b k hk => ?_, fun b hb k hk => ?_, fun n => ?_, ?_, fun b => ?_, hC.works, hC.mine,
    fun q b i hq => ?_, hC.single, fun b hb => ?_, fun b hb => ?_, hC.running⟩
  · by_cases hba : b = a
    · subst hba
      obtain ⟨h1, h2⟩ := hinit k hk
      obtain ⟨-, h3, h4, h5⟩ := (hC.slot b k hk).none (hnone k hk)
      simp only [update_self]
      exact .of_none h1 ⟨h2, h3, h4, h5⟩
    · simp only [update_of_ne hba]
      exact hC.slot b k hk
  · have hba : b ≠ a := fun e => by
      subst e
      cases hfresh.symm.trans hb
    simp only [update_of_ne hba]
    exact hC.own b hb k hk
  · exact (hC.opens n).trans (by rw [← hitems n]; rfl)
  · obtain ⟨leak, hleak, hn⟩ := hC.counts
    exact ⟨leak, hleak, fun n => (hn n).trans (by rw [← hitems n, ← hcwd n]; rfl)⟩
  · simp only [hcount]
    exact hC.files b
  · obtain ⟨e1, e2, e3⟩ := hC.owned q b i hq
    have hba : b ≠ a := fun e => by
      subst e
      cases hfresh.symm.trans e1
    simp only [update_of_ne hba]
    exact ⟨e1, e2, e3⟩
  · obtain ⟨e1, e2⟩ := hC.unused b hb
    simp only [hcount]
    exact ⟨e1, fun k hk => hst b k hk (e2 k hk)⟩
  · simp only [hcount]
    exact hC.kept b hb

variable [DecidableEq P]

theorem owned_self (hC : Conserved creates base (update hold p h) s) {i : ℕ}
    (ho : h.owned = some (a, i)) :
    s.used a = true ∧ s.filesCount a = 0 ∧ ∀ fd < i, (s.fdArray a fd).status = .none :=
  hC.owned p a i (by rwa [update_self])

/-- Only one process owns it. -/
theorem owner_unique (hC : Conserved creates base (update hold p h) s) {i j : ℕ}
    (ho : h.owned = some (a, i)) (hq : (update hold p h q).owned = some (a, j)) : q = p :=
  hC.single q p a j i hq (by rwa [update_self])

theorem handover (hC : Conserved creates base (update hold p h) s) {t : SharedFiles P S V}
    (hh : Handover s t p h w) : Conserved creates base (update hold p w) t := by
  have hitems : ∀ n, itemsOf t n = itemsOf s n := fun n => by rw [itemsOf, itemsOf, hh.fdArray]
  have hother : ∀ q, q ≠ p → update hold p w q = update hold p h q := fun q hq => by
    rw [update_of_ne hq, update_of_ne hq]
  -- who else owns a `files_struct` goes on owning it
  have hself : ∀ q b i, q ≠ p → (update hold p h q).owned = some (b, i) →
      ∀ j, h.owned ≠ some (b, j) := fun q b i hq ho j hj => hq (hC.owner_unique hj ho)
  refine ⟨fun b k hk => ?_, fun b hb k hk => ?_, fun n => ?_, ?_, hh.files, fun q b hq => ?_,
    fun q z hq => ?_, fun q b i hq => ?_, fun q q' b i j hq hq' => ?_, fun b hb => ?_,
    fun b hb => ?_, fun q hq => ?_⟩
  · rw [hh.fdArray, holders_congr (g := Hold.opening) (congrArg (hits · (b, k)) hh.opening),
      holders_congr (g := Hold.busy) (congrArg (hits · (b, k)) hh.busy),
      holders_congr (g := Hold.freeing) (congrArg (hits · (b, k)) hh.freeing)]
    exact hC.slot b k hk
  · rw [hh.fdArray]
    exact hh.own b hb k hk
  · rw [hh.openCount, hitems, holders_congr (g := Hold.opn) (congrArg (hits · n) hh.opn)]
    exact hC.opens n
  · obtain ⟨leak, hleak, hcount⟩ := hC.counts
    refine ⟨leak, hleak, fun n => ?_⟩
    have hn := hcount n
    have hmove := holders_move Hold.cwd hold p h w n
    have := hh.cwd n
    rw [hh.refCount, hitems, holders_congr (g := Hold.ref) (congrArg (hits · n) hh.ref)]
    omega
  · by_cases hqp : q = p
    · subst hqp
      rw [update_self] at hq
      exact hh.works b hq
    · rw [hother q hqp] at hq
      exact hh.filesp q hqp b (hC.works q b hq)
  · by_cases hqp : q = p
    · subst hqp
      rw [update_self] at hq ⊢
      rw [hh.opening, hh.busy, hh.freeing] at hq
      have hm := hC.mine q z
      rw [update_self] at hm
      exact hh.mine z hq (hm hq)
    · rw [hother q hqp] at hq ⊢
      exact (hC.mine q z hq).imp_left (hh.filesp q hqp z.1)
  · rw [hh.fdArray]
    by_cases hqp : q = p
    · subst hqp
      rw [update_self] at hq
      exact hh.owned b i hq
    · rw [hother q hqp] at hq
      obtain ⟨e1, e2, e3⟩ := hC.owned q b i hq
      obtain ⟨e4, e5⟩ := hh.others b e1 e2 (hself q b i hqp hq)
      exact ⟨e4, e5, e3⟩
  · -- it was owned, or used, by the process before
    have hne : ∀ q i j, q ≠ p → (update hold p h q).owned = some (b, i) →
        w.owned = some (b, j) → False := fun q i j hqp ho hp => by
      obtain ⟨hu, h0, -⟩ := hC.owned q b i ho
      obtain ⟨j', hj'⟩ := hh.single b j hp hu h0
      exact hself q b i hqp ho j' hj'
    by_cases hqp : q = p
    · by_cases hqp' : q' = p
      · rw [hqp, hqp']
      · subst hqp
        rw [update_self] at hq
        rw [hother q' hqp'] at hq'
        exact (hne q' j i hqp' hq' hq).elim
    · rw [hother q hqp] at hq
      by_cases hqp' : q' = p
      · subst hqp'
        rw [update_self] at hq'
        exact (hne q i j hqp hq hq').elim
      · rw [hother q' hqp'] at hq'
        exact hC.single q q' b i j hq hq'
  · rw [hh.fdArray]
    exact hh.unused b hb
  · rcases hh.kept b hb with hpos | ⟨i, hi⟩ | ⟨hu, h0, hno⟩
    · exact .inl hpos
    · exact .inr ⟨p, i, by rwa [update_self]⟩
    · rcases hC.kept b hu with hpos | ⟨q, i, hq⟩
      · exact .inl (h0 ▸ hpos)
      · have hqp : q ≠ p := fun e => by
          subst e
          rw [update_self] at hq
          exact hno i hq
        exact .inr ⟨q, i, by rwa [hother q hqp]⟩
  · by_cases hqp : q = p
    · subst hqp
      rw [update_self]
      exact hh.runs hq
    · rw [hother q hqp]
      rcases hh.running q hqp hq with ha | hne
      · refine (hC.running q ha).imp_left fun hne => ?_
        obtain ⟨b, hb⟩ := Option.ne_none_iff_exists'.1 hne
        rw [hh.filesp q hqp b hb]
        exact Option.some_ne_none b
      · exact .inl hne

/-- The next item of a `files_struct` that is destroyed is free. -/
theorem progress (hC : Conserved creates base (update hold p h) s) {i : ℕ}
    (ho : h.owned = some (a, i)) (hst : (s.fdArray a i).status = .none) :
    Conserved creates base (update hold p { h with owned := some (a, i + 1) }) s := by
  obtain ⟨h1, h2, h3⟩ := hC.owned_self ho
  have hrun := hC.running p
  refine hC.handover (w := { h with owned := some (a, i + 1) })
    ⟨rfl, rfl, rfl, rfl, rfl, rfl, rfl, rfl, fun _ => rfl, hC.own, hC.files,
      fun _ _ _ hb => hb, fun b hb => hC.works_self hb, fun z _ hz => ?_, fun b j hb => ?_,
      fun b j hb _ _ => ?_, fun b hb h0 _ => ⟨hb, h0⟩, hC.unused, fun b hb => ?_,
      fun q _ hq => .inl hq, fun _ => .inr (Option.some_ne_none _)⟩
  · refine hz.imp_right fun ⟨j, hj⟩ => ?_
    cases ho.symm.trans hj
    exact ⟨_, rfl⟩
  · cases hb
    refine ⟨h1, h2, fun k hk => ?_⟩
    obtain hlt | rfl := Nat.lt_succ_iff_lt_or_eq.1 hk
    · exact h3 k hlt
    · exact hst
  · cases hb
    exact ⟨i, ho⟩
  · by_cases hba : b = a
    · subst hba
      exact .inr (.inl ⟨_, rfl⟩)
    · exact .inr (.inr ⟨hb, rfl, fun j hj => hba (by cases ho.symm.trans hj; rfl)⟩)

/-- A process changes its working directory, and holds the old one. -/
theorem swapPwd (hC : Conserved creates base (update hold p h) s) (ha : 0 < s.filesCount a)
    (hc : h.cwd = some node) : Conserved creates base (update hold p { h with cwd := s.pwd a })
      { s with pwd := update s.pwd a (some node) } := by
  refine hC.handover (w := { h with cwd := s.pwd a })
    ⟨rfl, rfl, rfl, rfl, rfl, rfl, rfl, rfl, fun n => ?_, hC.own, hC.files,
      fun _ _ _ hb => hb, fun b hb => hC.works_self hb, fun z _ hz => hz,
      fun b j hb => hC.owned_self hb, fun b j hb _ _ => ⟨j, hb⟩, fun b hb h0 _ => ⟨hb, h0⟩,
      hC.unused, fun b hb => ?_, fun q _ hq => .inl hq, fun hp => ?_⟩
  · have hmove := refs_slot (S := Finset.univ) (f := cwdOf s)
      (g := cwdOf { s with pwd := update s.pwd a (some node) }) (p := n) (Finset.mem_univ a)
      fun b _ hb => by simp [cwdOf, update_of_ne hb]
    simp only [cwdOf, if_pos ha, update_self] at hmove
    rw [hc]
    exact hmove
  · by_cases hown : ∃ i, h.owned = some (b, i)
    · exact .inr (.inl hown)
    · exact .inr (.inr ⟨hb, rfl, fun i hi => hown ⟨i, hi⟩⟩)
  · have hrun := hC.running p hp
    rwa [update_self] at hrun

/-- A child gets a `files_struct`: that of its parent, or one that was made for it. -/
theorem adopt (hC : Conserved creates base (update hold p h) s) {child : P}
    (hchild : s.filesp child = none) (hne : child ≠ p) (hp : s.filesp p ≠ none)
    (ho : h.opening = none ∧ h.busy = none ∧ h.freeing = none)
    (ha : (h.cwd = none ∧ h.owned = none ∧ 0 < s.filesCount a) ∨
      h.cwd = s.pwd a ∧ h.owned = some (a, 0)) :
    Conserved creates base (update hold p { h with cwd := none, owned := none })
      { s with
        filesCount := update s.filesCount a (s.filesCount a + 1)
        filesp := update s.filesp child (some a) } := by
  have hfiles : ∀ b, (update s.filesCount a (s.filesCount a + 1)) b =
      refs Finset.univ (update s.filesp child (some a)) b := fun b => by
    have hmove := refs_set (S := Finset.univ) (f := s.filesp)
      (g := update s.filesp child (some a)) (p := b) (q := a) (Finset.mem_univ child)
      (fun q _ hq => update_of_ne hq ..) hchild (update_self ..)
    have hb := hC.files b
    by_cases hba : b = a
    · subst hba
      rw [update_self]
      simp only [if_true] at hmove
      omega
    · rw [update_of_ne hba]
      rw [if_neg (Ne.symm hba)] at hmove
      omega
  have hpos : 0 ≤ s.filesCount a := by
    rw [hC.files]
    omega
  have hused : s.used a = true := by
    rcases ha with ⟨-, -, ha⟩ | ⟨-, ha⟩
    · by_contra hu
      rw [(hC.unused a (Bool.eq_false_iff.2 hu)).1] at ha
      exact lt_irrefl _ ha
    · exact (hC.owned_self ha).1
  have hcwd : ∀ n, hits (cwdOf s a) n + hits h.cwd n = hits (s.pwd a) n := fun n => by
    rcases ha with ⟨hc, -, ha⟩ | ⟨hc, ha⟩
    · rw [cwdOf, if_pos ha, hc, hits_none, Nat.add_zero]
    · rw [cwdOf, if_neg (by rw [(hC.owned_self ha).2.1]; omega), hc, hits_none, Nat.zero_add]
  refine hC.handover (w := { h with cwd := none, owned := none })
    ⟨rfl, rfl, rfl, rfl, rfl, rfl, rfl, rfl, fun n => ?_, hC.own, hfiles,
      fun q _ b hb => ?_, fun b hb => ?_, fun z hz _ => ?_, fun b i e => ?_, fun b i e => ?_,
      fun b hb h0 hno => ?_, fun b hb => ?_, fun b hb => ?_, fun q _ hq => .inl hq, fun _ => ?_⟩
  · have hmove := refs_slot (S := Finset.univ) (f := cwdOf s)
      (g := cwdOf { s with
        filesCount := update s.filesCount a (s.filesCount a + 1)
        filesp := update s.filesp child (some a) }) (p := n) (Finset.mem_univ a) fun b _ hb => by
          simp [cwdOf, update_of_ne hb]
    have hself : cwdOf { s with
        filesCount := update s.filesCount a (s.filesCount a + 1)
        filesp := update s.filesp child (some a) } a = s.pwd a := by
      simp only [cwdOf, update_self]
      exact if_pos (by omega)
    rw [hself] at hmove
    have := hcwd n
    change _ = _ + hits (s.pwd a) n at hmove
    change _ + hits (cwdOf s a) n = _ at hmove
    simp only [hits_none]
    omega
  · have hqc : q ≠ child := fun e => by
      subst e
      cases hchild.symm.trans hb
    exact (update_of_ne hqc ..).trans hb
  · exact (update_of_ne (Ne.symm hne) ..).trans (hC.works_self hb)
  · simp [ho] at hz
  · cases e
  · cases e
  · have hba : b ≠ a := fun e => by
      subst e
      rcases ha with ⟨-, -, ha⟩ | ⟨-, ha⟩
      · omega
      · exact hno 0 ha
    exact ⟨hb, (update_of_ne hba ..).trans h0⟩
  · have hba : b ≠ a := fun e => by
      subst e
      cases hused.symm.trans hb
    obtain ⟨e1, e2⟩ := hC.unused b hb
    exact ⟨(update_of_ne hba ..).trans e1, e2⟩
  · by_cases hba : b = a
    · subst hba
      refine .inl ?_
      simp only [update_self]
      omega
    · refine .inr (.inr ⟨hb, update_of_ne hba .., fun i hi => ?_⟩)
      rcases ha with ⟨-, ha, -⟩ | ⟨-, ha⟩
      · cases ha.symm.trans hi
      · cases ha.symm.trans hi
        exact hba rfl
  · exact .inl (by simpa [update_of_ne (Ne.symm hne)] using hp)

/-- A process gives its `files_struct` up. -/
theorem files_put (hC : Conserved creates base hold s) (hp : s.filesp p = some a) (b : S) :
    (update s.filesCount a (s.filesCount a - 1)) b =
      refs Finset.univ (update s.filesp p none) b := by
  have hmove := refs_clear (S := Finset.univ) (f := s.filesp) (g := update s.filesp p none)
    (p := b) (q := a) (Finset.mem_univ p) (fun q _ hq => update_of_ne hq ..) hp (update_self ..)
  have hb := hC.files b
  by_cases hba : b = a
  · subst hba
    rw [update_self]
    simp only [if_true] at hmove
    omega
  · rw [update_of_ne hba]
    rw [if_neg (Ne.symm hba)] at hmove
    omega

/-- Others go on using it. -/
theorem put (hC : Conserved creates base (update hold p h) s) (hp : s.filesp p = some a)
    (hmore : s.filesCount a - 1 ≠ 0) (ho : h.opening = none ∧ h.busy = none ∧ h.freeing = none)
    (hw : h.owned = none) :
    Conserved creates base (update hold p { h with files := none })
      { s with
        filesCount := update s.filesCount a (s.filesCount a - 1)
        filesp := update s.filesp p none
        alive := update s.alive p false } := by
  have hpos := hC.pos_of_filesp hp
  have hcount : ∀ b, b ≠ a → update s.filesCount a (s.filesCount a - 1) b = s.filesCount b :=
    fun b hb => update_of_ne hb ..
  refine hC.handover (w := { h with files := none })
    ⟨rfl, rfl, rfl, rfl, rfl, rfl, rfl, rfl, fun n => ?_, hC.own, hC.files_put hp,
      fun q hq b hb => (update_of_ne hq ..).trans hb, nofun, fun z hz _ => ?_,
      fun b i hb => ?_, fun b i hb => ?_, fun b hb h0 _ => ?_, fun b hb => ?_, fun b hb => ?_,
      fun q hq ha => .inl ?_, fun ha => ?_⟩
  · congr 1
    refine refs_congr fun b _ => ?_
    by_cases hba : b = a
    · subst hba
      simp only [cwdOf, update_self]
      rw [if_pos (by omega), if_pos hpos]
    · simp only [cwdOf, hcount b hba]
  · simp [ho] at hz
  · cases hw.symm.trans hb
  · cases hw.symm.trans hb
  · have hba : b ≠ a := fun e => by
      subst e
      omega
    exact ⟨hb, (hcount b hba).trans h0⟩
  · obtain ⟨e1, e2⟩ := hC.unused b hb
    have hba : b ≠ a := fun e => by
      subst e
      omega
    exact ⟨(hcount b hba).trans e1, e2⟩
  · by_cases hba : b = a
    · subst hba
      refine .inl ?_
      simp only [update_self]
      omega
    · exact .inr (.inr ⟨hb, hcount b hba, fun i hi => by cases hw.symm.trans hi⟩)
  · simpa [update_of_ne hq] using ha
  · simp at ha

/-- It was the last one, and destroys it. -/
theorem putLast (hC : Conserved creates base (update hold p h) s) (hp : s.filesp p = some a)
    (hlast : s.filesCount a - 1 = 0) (ho : h.opening = none ∧ h.busy = none ∧ h.freeing = none)
    (hw : h.owned = none) (hc : h.cwd = none) :
    Conserved creates base
      (update hold p { h with files := none, owned := some (a, 0), cwd := s.pwd a })
      { s with
        filesCount := update s.filesCount a (s.filesCount a - 1)
        filesp := update s.filesp p none } := by
  have hcount : ∀ b, b ≠ a → update s.filesCount a (s.filesCount a - 1) b = s.filesCount b :=
    fun b hb => update_of_ne hb ..
  have hused : s.used a = true := by
    by_contra hu
    have := (hC.unused a (Bool.eq_false_iff.2 hu)).1
    omega
  have hnew : ∀ b i, some ((a, 0) : S × ℕ) = some (b, i) → b = a := fun b i e => by
    cases e
    rfl
  refine hC.handover (w := { h with files := none, owned := some (a, 0), cwd := s.pwd a })
    ⟨rfl, rfl, rfl, rfl, rfl, rfl, rfl, rfl, fun n => ?_, hC.own, hC.files_put hp,
      fun q hq b hb => (update_of_ne hq ..).trans hb, nofun, fun z hz _ => ?_,
      fun b i hb => ?_, fun b i hb _ h0 => ?_, fun b hb h0 _ => ?_, fun b hb => ?_, fun b hb => ?_,
      fun q hq ha => .inl ha, fun ha => .inr (Option.some_ne_none _)⟩
  · have hmove := refs_slot (S := Finset.univ) (f := cwdOf s)
      (g := cwdOf { s with
        filesCount := update s.filesCount a (s.filesCount a - 1)
        filesp := update s.filesp p none }) (p := n) (Finset.mem_univ a) fun b _ hb => by
          simp [cwdOf, update_of_ne hb]
    have hself : cwdOf { s with
        filesCount := update s.filesCount a (s.filesCount a - 1)
        filesp := update s.filesp p none } a = none := by
      simp only [cwdOf, update_self]
      exact if_neg (by omega)
    have hold : cwdOf s a = s.pwd a := if_pos (by omega)
    rw [hself, hold] at hmove
    rw [hc]
    exact hmove
  · simp [ho] at hz
  · cases hnew b i hb
    cases hb
    refine ⟨hused, ?_, fun k hk => absurd hk (Nat.not_lt_zero k)⟩
    simp only [update_self]
    exact hlast
  · cases hnew b i hb
    omega
  · have hba : b ≠ a := fun e => by
      subst e
      omega
    exact ⟨hb, (hcount b hba).trans h0⟩
  · obtain ⟨e1, e2⟩ := hC.unused b hb
    have hba : b ≠ a := fun e => by
      subst e
      omega
    exact ⟨(hcount b hba).trans e1, e2⟩
  · by_cases hba : b = a
    · subst hba
      exact .inr (.inl ⟨0, rfl⟩)
    · exact .inr (.inr ⟨hb, hcount b hba, fun i hi => by cases hw.symm.trans hi⟩)

/-- All its items are free, and so is it. -/
theorem kfree (hC : Conserved creates base (update hold p h) s)
    (hw : h.owned = some (a, filesStructNentry))
    (ho : h.opening = none ∧ h.busy = none ∧ h.freeing = none) :
    Conserved creates base (update hold p { h with owned := none })
      { s with used := update s.used a false, alive := update s.alive p false } := by
  obtain ⟨h1, h2, h3⟩ := hC.owned_self hw
  have hused : ∀ b, update s.used a false b = true → s.used b = true := fun b hb => by
    by_cases hba : b = a
    · rw [hba]
      exact h1
    · rwa [update_of_ne hba] at hb
  refine hC.handover (w := { h with owned := none })
    ⟨rfl, rfl, rfl, rfl, rfl, rfl, rfl, rfl, fun n => rfl, fun b hb => hC.own b (hused b hb),
      hC.files, fun q hq b hb => hb, fun b hb => hC.works_self hb, fun z hz _ => ?_, nofun, nofun,
      fun b hb h0 hno => ⟨?_, h0⟩, fun b hb => ?_, fun b hb => ?_, fun q hq ha => .inl ?_,
      fun ha => ?_⟩
  · simp [ho] at hz
  · have hba : b ≠ a := fun e => by
      subst e
      exact hno _ hw
    simpa [update_of_ne hba] using hb
  · by_cases hba : b = a
    · rw [hba]
      exact ⟨h2, h3⟩
    · exact hC.unused b (by simpa [update_of_ne hba] using hb)
  · have hba : b ≠ a := fun e => by
      subst e
      simp at hb
    refine .inr (.inr ⟨hused b hb, rfl, fun i hi => hba ?_⟩)
    cases hw.symm.trans hi
    rfl
  · simpa [update_of_ne hq] using ha
  · simp at ha

theorem setAlive (hC : Conserved creates base hold s) {b : Bool}
    (hb : b = true → s.filesp p ≠ none) :
    Conserved creates base hold { s with alive := update s.alive p b } := by
  refine ⟨hC.slot, hC.own, hC.opens, hC.counts, hC.files, hC.works, hC.mine, hC.owned, hC.single,
    hC.unused, hC.kept, fun q hq => ?_⟩
  by_cases hqp : q = p
  · subst hqp
    simp only [update_self] at hq
    exact .inl (hb hq)
  · exact hC.running q (by simpa [update_of_ne hqp] using hq)

/-- A `files_struct` is made, for now for the process alone. -/
theorem create (hC : Conserved creates base (update hold p h) s) (hw : h.owned = none)
    (hfresh : s.used a = false) :
    Conserved creates base (update hold p { h with owned := some (a, 0) })
      { s with
        pwd := update s.pwd a none
        filesCount := update s.filesCount a 0
        used := update s.used a true
        fdArray := update s.fdArray a (fdArrayInit (s.fdArray a)) } := by
  have hC' := hC.initialise hfresh
  have hnew : ∀ b i, some ((a, 0) : S × ℕ) = some (b, i) → b = a := fun b i e => by
    cases e
    rfl
  have hused : ∀ b, b ≠ a → update s.used a true b = s.used b := fun b hb => update_of_ne hb ..
  have hown : ∀ b, update s.used a true b = true → ∀ fd < filesStructNentry,
      (update s.fdArray a (fdArrayInit (s.fdArray a)) b fd).fd = fd := fun b hb k hk => by
    by_cases hba : b = a
    · subst hba
      rw [update_self, fdArrayInit, if_pos hk]
    · exact hC'.own b ((hused b hba).symm.trans hb) k hk
  refine hC'.handover (w := { h with owned := some (a, 0) })
    ⟨rfl, rfl, rfl, rfl, rfl, rfl, rfl, rfl, fun n => rfl, hown, hC'.files,
      fun q hq b hb => hb, fun b hb => hC'.works_self hb, fun z _ hz => ?_, fun b i hb => ?_,
      fun b i hb hu _ => ?_, fun b hb h0 _ => ⟨?_, h0⟩, fun b hb => ?_, fun b hb => ?_,
      fun q hq ha => .inl ha, fun ha => .inr (Option.some_ne_none _)⟩
  · refine hz.imp_right fun ⟨i, hi⟩ => ?_
    cases hw.symm.trans hi
  · cases hnew b i hb
    cases hb
    exact ⟨update_self .., update_self .., fun k hk => absurd hk (Nat.not_lt_zero k)⟩
  · cases hnew b i hb
    cases hfresh.symm.trans hu
  · by_cases hba : b = a
    · subst hba
      exact update_self ..
    · exact (hused b hba).trans hb
  · have hba : b ≠ a := fun e => by
      subst e
      simp at hb
    exact hC'.unused b ((hused b hba).symm.trans hb)
  · by_cases hba : b = a
    · subst hba
      exact .inr (.inl ⟨0, rfl⟩)
    · exact .inr (.inr ⟨(hused b hba).symm.trans hb, rfl, fun i hi => by cases hw.symm.trans hi⟩)

end Conserved

end Ucore.SharedFiles
