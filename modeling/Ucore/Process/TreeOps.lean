/-
  What `do_fork`, `do_wait` and `do_exit` do to the process table.

  * `TableLists.add`, `TableLists.remove`: the process list and the buckets;
  * `Tree.fork`: the child is listed, hashed and first among its siblings;
  * `Tree.reap`: a zombie leaves the list, its bucket and the chain of its siblings;
  * `Tree.exit`: the children move, one by one, to the front of the chain of `initproc`.
-/
import Ucore.Process.TreeInv

namespace Ucore

open Intrusive

set_option linter.unusedSectionVars false

variable {P : Type} [DecidableEq P]

namespace Procs

variable {s s' : Procs P} {live : Finset P} {p q x cur init : P}

/-! ## The lists -/

/-- The process list and the buckets hold the processes `M`, with their pids. -/
structure TableLists (L : Links (ProcNode P)) (M : Finset P) (pid : P → ℤ) : Prop where
  list : ∃ ps : List P, Circ L .procList (ps.map .listLink) ∧ ∀ p, p ∈ ps ↔ p ∈ M
  hash : ∀ i < 2 ^ hashShift, ∃ ps : List P, Circ L (.hashList i) (ps.map .hashLink) ∧
    ∀ p, p ∈ ps ↔ p ∈ M ∧ pidHashfn (pid p) = i

namespace TableLists

variable {L : Links (ProcNode P)} {M : Finset P} {pid pid' : P → ℤ}

/-- `hash_proc`, and the `list_add` of `set_links`. -/
theorem add (h : TableLists L M pid) (hq : q ∉ M) (hpid : ∀ p ∈ M, pid' p = pid p) :
    TableLists (listAdd (listAdd L (.hashList (pidHashfn (pid' q))) (.hashLink q))
      .procList (.listLink q)) (insert q M) pid' := by
  have hne : ∀ p ∈ M, p ≠ q := by rintro p hp rfl; exact hq hp
  obtain ⟨ps, hcl, hps⟩ := h.list
  obtain ⟨hs, hch, hhs⟩ := h.hash _ (pidHashfn_lt (pid' q))
  have hqh : (ProcNode.hashLink q) ∉ .hashList (pidHashfn (pid' q)) :: hs.map .hashLink := by
    simp only [List.mem_cons, reduceCtorEq, List.mem_map, ProcNode.hashLink.injEq,
      exists_eq_right, false_or, hhs]
    exact fun hm => hne q hm.1 rfl
  have hql : (ProcNode.listLink q) ∉ .procList :: ps.map .listLink := by
    simp only [List.mem_cons, reduceCtorEq, List.mem_map, ProcNode.listLink.injEq,
      exists_eq_right, false_or, hps]
    exact fun hm => hne q hm rfl
  -- the bucket, then the process list
  have hcl₁ : Circ (listAdd L (.hashList (pidHashfn (pid' q))) (.hashLink q)) .procList
      (ps.map .listLink) := circ_listAdd_other hch hcl fun x hx => by
    simp only [List.mem_cons, List.mem_map] at hx
    rcases hx with rfl | ⟨p, -, rfl⟩ <;> simp
  have hhash : ∀ {i : ℕ} {hs' : List P}, Circ (listAdd L (.hashList (pidHashfn (pid' q)))
      (.hashLink q)) (.hashList i) (hs'.map .hashLink) →
        Circ (listAdd (listAdd L (.hashList (pidHashfn (pid' q))) (.hashLink q))
          .procList (.listLink q)) (.hashList i) (hs'.map .hashLink) := fun {i hs'} hc => by
    refine circ_listAdd_other hcl₁ hc fun x hx => ?_
    simp only [List.mem_cons, List.mem_map] at hx
    rcases hx with rfl | ⟨p, -, rfl⟩ <;> simp
  refine ⟨⟨q :: ps, circ_listAdd_front hcl₁ hql, fun p => by
    rw [List.mem_cons, Finset.mem_insert, hps]⟩, fun i hi => ?_⟩
  by_cases hi' : i = pidHashfn (pid' q)
  · subst hi'
    have hc : Circ (listAdd L (.hashList (pidHashfn (pid' q))) (.hashLink q))
        (.hashList (pidHashfn (pid' q))) ((q :: hs).map .hashLink) := circ_listAdd_front hch hqh
    refine ⟨q :: hs, hhash hc, fun p => ?_⟩
    rw [List.mem_cons, Finset.mem_insert, hhs]
    constructor
    · rintro (rfl | ⟨hp, he⟩)
      · exact ⟨Or.inl rfl, rfl⟩
      · exact ⟨Or.inr hp, (congrArg pidHashfn (hpid p hp)).trans he⟩
    · rintro ⟨rfl | hp, he⟩
      · exact Or.inl rfl
      · exact Or.inr ⟨hp, (congrArg pidHashfn (hpid p hp)).symm.trans he⟩
  · obtain ⟨hs', hch', hhs'⟩ := h.hash i hi
    refine ⟨hs', hhash (circ_listAdd_other hch hch' fun x hx => ?_), fun p => ?_⟩
    · simp only [List.mem_cons, List.mem_map] at hx
      rcases hx with rfl | ⟨p, hpm, rfl⟩
      · simp [hi']
      · simp only [List.mem_cons, reduceCtorEq, List.mem_map, ProcNode.hashLink.injEq,
          exists_eq_right, false_or, ne_eq]
        refine ⟨fun hm => hi' ?_, hne p ((hhs' p).1 hpm).1⟩
        rw [← ((hhs' p).1 hpm).2, ((hhs p).1 hm).2]
    · rw [hhs', Finset.mem_insert]
      constructor
      · rintro ⟨hp, he⟩
        exact ⟨Or.inr hp, (congrArg pidHashfn (hpid p hp)).trans he⟩
      · rintro ⟨rfl | hp, he⟩
        · exact absurd he.symm hi'
        · exact ⟨hp, (congrArg pidHashfn (hpid p hp)).symm.trans he⟩

/-- `unhash_proc`, and the `list_del` of `remove_links`. -/
theorem remove (h : TableLists L M pid) (hq : q ∈ M) :
    TableLists (listDel (listDel L (.hashLink q)) (.listLink q)) (M.erase q) pid := by
  obtain ⟨ps, hcl, hps⟩ := h.list
  obtain ⟨l₁, l₂, rfl⟩ := List.append_of_mem ((hps q).2 hq)
  obtain ⟨hs, hch, hhs⟩ := h.hash _ (pidHashfn_lt (pid q))
  obtain ⟨b₁, b₂, rfl⟩ := List.append_of_mem ((hhs q).2 ⟨hq, rfl⟩)
  -- the bucket, then the process list
  have hcl₁ : Circ (listDel L (.hashLink q)) .procList ((l₁ ++ q :: l₂).map .listLink) :=
    circ_listDel_other hch (by simp) hcl fun x hx => by
      simp only [List.mem_cons, List.mem_map] at hx
      rcases hx with rfl | ⟨p, -, rfl⟩ <;> simp
  have hhash : ∀ {i : ℕ} {hs' : List P}, Circ (listDel L (.hashLink q)) (.hashList i)
      (hs'.map .hashLink) → Circ (listDel (listDel L (.hashLink q)) (.listLink q)) (.hashList i)
        (hs'.map .hashLink) := fun {i hs'} hc => by
    refine circ_listDel_other hcl₁ (by simp) hc fun x hx => ?_
    simp only [List.mem_cons, List.mem_map] at hx
    rcases hx with rfl | ⟨p, -, rfl⟩ <;> simp
  refine ⟨⟨l₁ ++ l₂, ?_, fun p => ?_⟩, fun i hi => ?_⟩
  · rw [List.map_append]
    rw [List.map_append, List.map_cons] at hcl₁
    exact circ_listDel hcl₁
  · rw [Finset.mem_erase, mem_erase_append (nodup_of_map hcl), hps]
    tauto
  · by_cases hi' : i = pidHashfn (pid q)
    · subst hi'
      refine ⟨b₁ ++ b₂, hhash ?_, fun p => ?_⟩
      · rw [List.map_append]
        rw [List.map_append, List.map_cons] at hch
        exact circ_listDel hch
      · rw [Finset.mem_erase, mem_erase_append (nodup_of_map hch), hhs]
        tauto
    · obtain ⟨hs', hch', hhs'⟩ := h.hash i hi
      refine ⟨hs', hhash (circ_listDel_other hch (by simp) hch' fun x hx => ?_), fun p => ?_⟩
      · simp only [List.mem_cons, List.mem_map] at hx
        rcases hx with rfl | ⟨p, hpm, rfl⟩
        · simp [hi']
        · rw [List.mem_cons, List.mem_map]
          rintro (hx | ⟨r, hr, hrp⟩)
          · cases hx
          · obtain rfl : r = p := by simpa using hrp
            exact hi' (by rw [← ((hhs' r).1 hpm).2, ((hhs r).1 hr).2])
      · rw [hhs', Finset.mem_erase]
        constructor
        · rintro ⟨h1, h2⟩
          exact ⟨⟨by rintro rfl; exact hi' h2.symm, h1⟩, h2⟩
        · rintro ⟨⟨-, h1⟩, h2⟩
          exact ⟨h1, h2⟩

end TableLists

theorem Tree.lists (h : Tree s live) :
    TableLists s.links (live.erase s.idleproc) fun p => (s.pcb p).pid :=
  ⟨h.list, h.hash⟩

/-! ## Links -/

/-- The parent of a listed process is listed. -/
theorem Tree.parent_mem (h : Tree s live) (hq : q ∈ live) (hp : (s.pcb q).parent = some p) :
    p ∈ live ∧ q ≠ s.idleproc ∧ q ≠ p := by
  have hqi : q ≠ s.idleproc := by rintro rfl; rw [h.idleParent] at hp; cases hp
  obtain ⟨p', hp', hpp, hne⟩ := h.parent q (Finset.mem_erase.2 ⟨hqi, hq⟩)
  obtain rfl : p' = p := by rw [hpp] at hp; exact Option.some.inj hp
  exact ⟨hp', hqi, hne⟩

/-- The first child is a child. -/
theorem Tree.cptr_mem (h : Tree s live) (hp : p ∈ live) (hc : (s.pcb p).cptr = some q) :
    q ∈ live ∧ (s.pcb q).parent = some p := by
  obtain ⟨qs, ⟨hch, -⟩, hqs⟩ := h.kids p hp
  refine (hqs q).1 ?_
  cases qs with
  | nil => have : (s.pcb p).cptr = none := hch
           rw [this] at hc; cases hc
  | cons a qs => have := hch.1
                 rw [hc, Option.some.injEq] at this; simp [this]

/-- `set_links`, field by field. -/
theorem setLinks_spec (hp : (s.pcb q).parent = some cur) :
    ∃ s', s.setLinks q = some s' ∧ SameTable { s with
        links := listAdd s.links .procList (.listLink q), nrProcess := s.nrProcess + 1 } s' ∧
      ∀ p, s'.pcb p = { s.pcb p with
        cptr := if p = cur then some q else (s.pcb p).cptr
        yptr := if (s.pcb cur).cptr = some p then some q else
          if p = q then none else (s.pcb p).yptr
        optr := if p = q then (s.pcb cur).cptr else (s.pcb p).optr } := by
  simp only [setLinks, hp, Option.bind_eq_bind, Option.bind_some]
  exact ⟨_, rfl, ⟨rfl, rfl, rfl, rfl, rfl, rfl, rfl⟩, fun p => by simp⟩

/-- `get_pid`, `hash_proc`, `set_links` and `wakeup_proc` for a child that is not listed yet. -/
theorem doForkEnd_spec (h : Tree s live) (hf : s.forking cur = some q)
    (hp : (s.pcb q).parent = some cur) (hst : (s.pcb q).run.state ≠ .zombie)
    (hc : (live.card : ℤ) < maxPid) :
    ∃ pid safe g s', s.doForkEnd cur = some (pid, s') ∧ g.state = .runnable ∧
      (1 ≤ pid ∧ pid < maxPid ∧ safe ≤ maxPid ∧ ∀ p ∈ live.erase s.idleproc,
        (s.pcb p).pid < pid ∨ (pid < (s.pcb p).pid ∧ safe ≤ (s.pcb p).pid)) ∧
      SameTable { s with
        links := listAdd (listAdd s.links (.hashList (pidHashfn pid)) (.hashLink q))
          .procList (.listLink q)
        nrProcess := s.nrProcess + 1, lastPid := pid, nextSafe := safe
        forking := Function.update s.forking cur none } s' ∧
      ∀ p, s'.pcb p = { s.pcb p with
        run := if p = q then g else (s.pcb p).run
        pid := if p = q then pid else (s.pcb p).pid
        cptr := if p = cur then some q else (s.pcb p).cptr
        yptr := if (s.pcb cur).cptr = some p then some q else
          if p = q then none else (s.pcb p).yptr
        optr := if p = q then (s.pcb cur).cptr else (s.pcb p).optr } := by
  obtain ⟨pid, safe, hpid, h1, h2, h3, h4⟩ := h.getPid_spec hc
  set s₁ := (({ s with lastPid := pid, nextSafe := safe } : Procs P).setPid q pid).hashProc q
    with hs₁
  have hp₁ : (s₁.pcb q).parent = some cur := by simpa [hs₁, hashProc] using hp
  obtain ⟨s₂, hs₂, ht₂, hpcb₂⟩ := setLinks_spec hp₁
  have hst₂ : (s₂.pcb q).run.state ≠ .zombie := by
    rw [hpcb₂]; simpa [hs₁, hashProc] using hst
  obtain ⟨g, hg, hw⟩ := wakeupProc_spec s₂ q hst₂
  refine ⟨pid, safe, g, { (s₂.setRun q g) with
    forking := Function.update (s₂.setRun q g).forking cur none }, ?_, hg, ⟨h1, h2, h3, h4⟩, ?_,
    fun p => ?_⟩
  · simp only [doForkEnd, hf, hpid, ← hs₁, hs₂, hw, Option.bind_eq_bind, Option.bind_some]
    simp [hpcb₂, hs₁, hashProc]
  · obtain ⟨a1, a2, a3, a4, a5, a6, a7⟩ := ht₂
    refine ⟨?_, a2, a3, a4, a5, a6, ?_⟩
    · simp only [setRun, setPcb, a1, hs₁, hashProc]; simp [setPid, setPcb]
    · simp only [setRun, setPcb, a7, hs₁, hashProc]; rfl
  · simp [hpcb₂, hs₁, hashProc]

/-! ## `do_fork` -/

/-- The child is first among its siblings, and has no children. -/
theorem Tree.kids_fork (h : Tree s live) (hq : q ∉ live) (hcur : cur ∈ live)
    (hp : (s.pcb q).parent = some cur) (hcq : (s.pcb q).cptr = none)
    (hparent : ∀ p, (s'.pcb p).parent = (s.pcb p).parent)
    (hcptr' : ∀ p, (s'.pcb p).cptr = if p = cur then some q else (s.pcb p).cptr)
    (hyptr : ∀ p, (s'.pcb p).yptr = if (s.pcb cur).cptr = some p then some q else
      if p = q then none else (s.pcb p).yptr)
    (hoptr : ∀ p, (s'.pcb p).optr = if p = q then (s.pcb cur).cptr else (s.pcb p).optr)
    {p : P} (hpl : p ∈ insert q live) :
    ∃ qs, s'.Children p qs ∧ ∀ x, x ∈ qs ↔ x ∈ insert q live ∧ (s'.pcb x).parent = some p := by
  have hne : ∀ x ∈ live, x ≠ q := by rintro x hx rfl; exact hq hx
  obtain ⟨ks, ⟨hkc, hknd⟩, hks⟩ := h.kids cur hcur
  have hcptr : ∀ p, (s.pcb cur).cptr = some p → p ∈ live ∧ (s.pcb p).parent = some cur :=
    fun p hc => h.cptr_mem hcur hc
  rw [Finset.mem_insert] at hpl
  have hpar : ∀ x, x ∈ insert q live ∧ (s'.pcb x).parent = some p ↔
      (x = q ∧ p = cur) ∨ (x ∈ live ∧ (s.pcb x).parent = some p) := fun x => by
    rw [hparent, Finset.mem_insert]
    constructor
    · rintro ⟨rfl | hx, hxp⟩
      · rw [hp, Option.some.injEq] at hxp; exact Or.inl ⟨rfl, hxp.symm⟩
      · exact Or.inr ⟨hx, hxp⟩
    · rintro (⟨rfl, rfl⟩ | ⟨hx, hxp⟩)
      exacts [⟨Or.inl rfl, hp⟩, ⟨Or.inr hx, hxp⟩]
  simp only [hpar, Children, hcptr', hyptr, hoptr]
  by_cases hpc : p = cur
  · subst hpc
    refine ⟨q :: ks, ⟨?_, List.nodup_cons.2 ⟨fun hm => hq ((hks q).1 hm).1, hknd⟩⟩, fun x => by
      rw [List.mem_cons, hks]; simp⟩
    have hqk : ∀ x ∈ ks, x ≠ q := fun x hx => hne x ((hks x).1 hx).1
    have hcq' : (s.pcb p).cptr ≠ some q := fun hc => hq (hcptr q hc).1
    simp only [if_true]
    exact hkc.push (by simp) (by simp [hcq']) (fun x hx => by simp [hqk x hx])
      (fun x hx => by simp [hqk x hx]) hknd
  · have hother : ∀ x, x ∈ live ∧ (s.pcb x).parent = some p ↔
        (x = q ∧ p = cur) ∨ (x ∈ live ∧ (s.pcb x).parent = some p) := fun x => by simp [hpc]
    rcases hpl with rfl | hpl
    · refine ⟨[], ⟨?_, by simp⟩, fun x => ?_⟩
      · simp only [hpc, if_false, hcq]; rfl
      · simp only [List.not_mem_nil, ← hother, false_iff]
        rintro ⟨hx, hxp⟩
        exact hq (h.parent_mem hx hxp).1
    · obtain ⟨qs, ⟨hc, hnd⟩, hqs⟩ := h.kids p hpl
      refine ⟨qs, ⟨?_, hnd⟩, fun x => by rw [hqs, ← hother]⟩
      simp only [hpc, if_false]
      refine hc.congr (fun x hx => ?_) fun x hx => ?_
      · simp [hne x ((hqs x).1 hx).1]
      · have hxc : (s.pcb cur).cptr ≠ some x := fun hcx => by
          have := (hcptr x hcx).2
          rw [((hqs x).1 hx).2, Option.some.injEq] at this
          exact hpc this
        simp [hne x ((hqs x).1 hx).1, hxc]

/-- **Fork.** The child `q` of `cur` joins the table. -/
theorem Tree.fork (h : Tree s live) (hq : q ∉ live) (hcur : cur ∈ live)
    (hcz : (s.pcb cur).run.state ≠ .zombie) (hp : (s.pcb q).parent = some cur)
    (hcq : (s.pcb q).cptr = none) {pid safe : ℤ} {g : Proc} (hg : g.state = .runnable)
    (hpid : 1 ≤ pid ∧ pid < maxPid ∧ safe ≤ maxPid ∧ ∀ p ∈ live.erase s.idleproc,
        (s.pcb p).pid < pid ∨ (pid < (s.pcb p).pid ∧ safe ≤ (s.pcb p).pid))
    (ht : s'.links = listAdd (listAdd s.links (.hashList (pidHashfn pid)) (.hashLink q))
        .procList (.listLink q) ∧
      s'.nrProcess = s.nrProcess + 1 ∧ s'.lastPid = pid ∧ s'.nextSafe = safe ∧
      s'.idleproc = s.idleproc)
    (hpcb : ∀ p, s'.pcb p = { s.pcb p with
      run := if p = q then g else (s.pcb p).run
      pid := if p = q then pid else (s.pcb p).pid
      cptr := if p = cur then some q else (s.pcb p).cptr
      yptr := if (s.pcb cur).cptr = some p then some q else
        if p = q then none else (s.pcb p).yptr
      optr := if p = q then (s.pcb cur).cptr else (s.pcb p).optr }) :
    Tree s' (insert q live) := by
  obtain ⟨hlinks, hnr, hlast, hsafe, hidle⟩ := ht
  obtain ⟨hp1, hp2, hp3, hp4⟩ := hpid
  have hqi : q ≠ s.idleproc := by rintro rfl; exact hq h.idle
  have herase : (insert q live).erase s'.idleproc = insert q (live.erase s.idleproc) := by
    rw [hidle, Finset.erase_insert_of_ne hqi]
  have hqe : q ∉ live.erase s.idleproc := fun hm => hq (Finset.mem_erase.1 hm).2
  have hne : ∀ p ∈ live, p ≠ q := by rintro p hpl rfl; exact hq hpl
  have hnee : ∀ p ∈ live.erase s.idleproc, p ≠ q := fun p hpl => hne p (Finset.mem_erase.1 hpl).2
  have hpids : ∀ p ∈ live.erase s.idleproc, (s'.pcb p).pid = (s.pcb p).pid := fun p hpl => by
    rw [hpcb]
    exact if_neg (hnee p hpl)
  have hpidq : (s'.pcb q).pid = pid := by
    rw [hpcb]
    exact if_pos rfl
  have hlists := h.lists.add hqe hpids
  rw [hpidq, ← hlinks, ← herase] at hlists
  have hmem : ∀ p, p ∈ (insert q live).erase s'.idleproc ↔ p = q ∨ p ∈ live.erase s.idleproc :=
    fun p => by rw [herase, Finset.mem_insert]
  refine ⟨?_, ?_, ?_, hlists.list, hlists.hash, fun p hpl => h.kids_fork hq hcur hp hcq
    (fun p => by rw [hpcb]) (fun p => by rw [hpcb]) (fun p => by rw [hpcb])
    (fun p => by rw [hpcb]) hpl, fun p hpl => ?_, fun p hpl hz => ?_, ?_,
    fun p hpl => ?_, fun p hpl r hrl hpr => ?_, fun p hpl => ?_, by rw [hlast]; omega,
    by rw [hsafe]; exact hp3⟩
  · rw [hidle]; exact Finset.mem_insert_of_mem h.idle
  · rw [hidle, hpcb]; exact h.idleParent
  · rw [hidle, hpcb]; simpa [hqi.symm] using h.idleAlive
  · rw [hmem] at hpl
    rw [hpcb]
    rcases hpl with rfl | hpl
    · exact ⟨cur, Finset.mem_insert_of_mem hcur, hp, fun hqc => hq (hqc ▸ hcur)⟩
    · obtain ⟨r, hr, hpr, hne'⟩ := h.parent p hpl
      exact ⟨r, Finset.mem_insert_of_mem hr, hpr, hne'⟩
  · rw [hpcb] at hz ⊢
    rcases Finset.mem_insert.1 hpl with rfl | hpl
    · simp [hg] at hz
    · have hz' : (s.pcb p).run.state = .zombie := by simpa [hne p hpl] using hz
      have hpc : p ≠ cur := by rintro rfl; exact hcz hz'
      simpa [hpc] using h.zombie p hpl hz'
  · rw [hnr, h.count, Finset.card_insert_of_notMem hq]; push_cast; rfl
  · rw [hmem] at hpl
    rw [hpcb]
    rcases hpl with rfl | hpl
    · simp [hp1, hp2]
    · simpa [hnee p hpl] using h.pidRange p hpl
  · rw [hmem] at hpl hrl
    rw [hpcb, hpcb] at hpr
    rcases hpl with rfl | hpl <;> rcases hrl with rfl | hrl
    · rfl
    · have := hp4 r hrl
      simp only [if_true, hnee r hrl, if_false] at hpr; omega
    · have := hp4 p hpl
      simp only [if_true, hnee p hpl, if_false] at hpr; omega
    · exact h.pidInj p hpl r hrl (by simpa [hnee p hpl, hnee r hrl] using hpr)
  · rw [hmem] at hpl
    rw [hpcb, hlast, hsafe]
    rcases hpl with rfl | hpl
    · simp
    · have := hp4 p hpl
      simp only [hnee p hpl, if_false]; omega

/-- `remove_links`, field by field. -/
theorem removeLinks_spec (hp : (s.pcb q).parent = some cur) (ho : (s.pcb q).optr ≠ some q) :
    ∃ s', s.removeLinks q = some s' ∧ SameTable { s with
        links := listDel s.links (.listLink q), nrProcess := s.nrProcess - 1 } s' ∧
      ∀ p, s'.pcb p = { s.pcb p with
        cptr := if (s.pcb q).yptr = none ∧ p = cur then (s.pcb q).optr else (s.pcb p).cptr
        yptr := if (s.pcb q).optr = some p then (s.pcb q).yptr else (s.pcb p).yptr
        optr := if (s.pcb q).yptr = some p then (s.pcb q).optr else (s.pcb p).optr } := by
  cases hy : (s.pcb q).yptr with
  | none =>
    simp only [removeLinks, pcb_setYptr?, hy, ho, if_false, hp, Option.bind_eq_bind,
      Option.bind_some]
    exact ⟨_, rfl, ⟨rfl, rfl, rfl, rfl, rfl, rfl, rfl⟩, fun p => by simp⟩
  | some y =>
    simp only [removeLinks, pcb_setYptr?, hy, ho, if_false, Option.bind_eq_bind, Option.bind_some]
    exact ⟨_, rfl, ⟨rfl, rfl, rfl, rfl, rfl, rfl, rfl⟩, fun p => by simp [eq_comm]⟩

/-- The next sibling, and the one before, are siblings. -/
theorem Tree.siblings (h : Tree s live) (hq : q ∈ live) (hcur : cur ∈ live)
    (hp : (s.pcb q).parent = some cur) :
    (∀ x, (s.pcb q).optr = some x → x ∈ live ∧ (s.pcb x).parent = some cur ∧ x ≠ q) ∧
      ∀ x, (s.pcb q).yptr = some x → x ∈ live ∧ (s.pcb x).parent = some cur := by
  obtain ⟨ks, ⟨hkc, hknd⟩, hks⟩ := h.kids cur hcur
  obtain ⟨as, bs, rfl⟩ := List.append_of_mem ((hks q).2 ⟨hq, hp⟩)
  have hqk : q ∈ as ++ q :: bs := by simp
  refine ⟨fun x hx => ?_, fun x hx => (hks x).1 (hkc.prev_mem hqk hx).1⟩
  have hm := (hks x).1 (hkc.next_mem hqk hx).1
  refine ⟨hm.1, hm.2, ?_⟩
  rintro rfl
  have := hkc.next_mid
  rw [hx] at this
  exact (List.nodup_cons.1 (List.nodup_middle.1 hknd)).1
    (List.mem_append_right _ (List.mem_of_head? this.symm))

/-- A process without children is taken out of the chain of its siblings. -/
theorem Tree.kids_reap (h : Tree s live) (hq : q ∈ live) (hcur : cur ∈ live)
    (hp : (s.pcb q).parent = some cur)
    (hpcb : ∀ p, s'.pcb p = { s.pcb p with
      cptr := if (s.pcb q).yptr = none ∧ p = cur then (s.pcb q).optr else (s.pcb p).cptr
      yptr := if (s.pcb q).optr = some p then (s.pcb q).yptr else (s.pcb p).yptr
      optr := if (s.pcb q).yptr = some p then (s.pcb q).optr else (s.pcb p).optr })
    {p : P} (hpl : p ∈ live) :
    ∃ qs, s'.Children p qs ∧ ∀ x, x ∈ qs ↔ x ∈ live.erase q ∧ (s'.pcb x).parent = some p := by
  obtain ⟨hnext, hprev⟩ := h.siblings hq hcur hp
  have hpar : ∀ x, x ∈ live.erase q ∧ (s'.pcb x).parent = some p ↔
      (x ∈ live ∧ (s.pcb x).parent = some p) ∧ x ≠ q := fun x => by
    rw [hpcb, Finset.mem_erase]; tauto
  simp only [hpar]
  by_cases hpc : p = cur
  · subst hpc
    obtain ⟨ks, ⟨hkc, hknd⟩, hks⟩ := h.kids p hcur
    obtain ⟨as, bs, rfl⟩ := List.append_of_mem ((hks q).2 ⟨hq, hp⟩)
    refine ⟨as ++ bs, ⟨?_, (List.nodup_cons.1 (List.nodup_middle.1 hknd)).2⟩, fun x => by
      rw [mem_erase_append hknd, hks]⟩
    have hrem : Chain (fun q => (s'.pcb q).optr) (fun q => (s'.pcb q).yptr) none
        (if (s.pcb q).yptr = none then (s.pcb q).optr else (s.pcb p).cptr) (as ++ bs) :=
      hkc.remove hknd (by simp) (fun x _ => by simp [hpcb]) fun x _ => by simp [hpcb]
    rw [hpcb p]; simpa using hrem
  · obtain ⟨qs, ⟨hc, hnd⟩, hqs⟩ := h.kids p hpl
    refine ⟨qs, ⟨?_, hnd⟩, fun x => ?_⟩
    · have hx : ∀ x ∈ qs, (s.pcb q).optr ≠ some x ∧ (s.pcb q).yptr ≠ some x := fun x hx => by
        have hxp := ((hqs x).1 hx).2
        refine ⟨fun ho => hpc ?_, fun hy => hpc ?_⟩
        · rw [(hnext x ho).2.1, Option.some.injEq] at hxp; exact hxp.symm
        · rw [(hprev x hy).2, Option.some.injEq] at hxp; exact hxp.symm
      simp only [hpcb, hpc, and_false, if_false]
      exact hc.congr (fun x hx' => by simp [hx x hx']) fun x hx' => by simp [hx x hx']
    · rw [hqs]
      refine ⟨fun hx => ⟨hx, ?_⟩, fun hx => hx.1⟩
      rintro rfl
      rw [hp, Option.some.injEq] at hx; exact hpc hx.2.symm

/-- **Reap.** The zombie `q` leaves the table. -/
theorem Tree.reap (h : Tree s live) (hq : q ∈ live.erase s.idleproc)
    (hz : (s.pcb q).run.state = .zombie) :
    ∃ s', (s.unhashProc q).removeLinks q = some s' ∧ Tree s' (live.erase q) ∧
      s'.nrProcess = s.nrProcess - 1 ∧ s'.idleproc = s.idleproc ∧ s'.initproc = s.initproc ∧
      s'.forking = s.forking ∧ ∀ p, (s'.pcb p).run = (s.pcb p).run ∧
        (s'.pcb p).parent = (s.pcb p).parent ∧ (p ∉ live → s'.pcb p = s.pcb p) := by
  obtain ⟨hqi, hql⟩ := Finset.mem_erase.1 hq
  obtain ⟨cur, hcur, hp, hqc⟩ := h.parent q hq
  obtain ⟨hnext, hprev⟩ := h.siblings hql hcur hp
  obtain ⟨s', hs', ⟨t1, t2, t3, t4, t5, t6, t7⟩, hpcb⟩ :=
    removeLinks_spec (s := s.unhashProc q) (q := q) hp fun ho => (hnext q ho).2.2 rfl
  have hpcb : ∀ p, s'.pcb p = { s.pcb p with
      cptr := if (s.pcb q).yptr = none ∧ p = cur then (s.pcb q).optr else (s.pcb p).cptr
      yptr := if (s.pcb q).optr = some p then (s.pcb q).yptr else (s.pcb p).yptr
      optr := if (s.pcb q).yptr = some p then (s.pcb q).optr else (s.pcb p).optr } := hpcb
  have t1 : s'.links = listDel (listDel s.links (.hashLink q)) (.listLink q) := t1
  have t5 : s'.idleproc = s.idleproc := t5
  refine ⟨s', hs', ?_, t2, t5, t6, t7, fun p => ⟨by rw [hpcb], by rw [hpcb], fun hpl => ?_⟩⟩
  swap
  · have h1 : p ≠ cur := by rintro rfl; exact hpl hcur
    have h2 : (s.pcb q).optr ≠ some p := fun ho => hpl (hnext p ho).1
    have h3 : (s.pcb q).yptr ≠ some p := fun hy => hpl (hprev p hy).1
    rw [hpcb]; simp [h1, h2, h3]
  have herase : (live.erase q).erase s'.idleproc = (live.erase s.idleproc).erase q := by
    rw [t5, Finset.erase_right_comm]
  have hmem : ∀ p, p ∈ (live.erase q).erase s'.idleproc ↔ p ≠ q ∧ p ∈ live.erase s.idleproc :=
    fun p => by rw [herase, Finset.mem_erase]
  have hcq : (s.pcb q).cptr = none := h.zombie q hql hz
  have hchild : ∀ p ∈ live, (s.pcb p).parent ≠ some q := fun p hpl hpq => by
    obtain ⟨qs, ⟨hc, -⟩, hqs⟩ := h.kids q hql
    rw [hcq] at hc
    obtain rfl := hc.nil_iff.1 rfl
    exact absurd ((hqs p).2 ⟨hpl, hpq⟩) (by simp)
  have hpids : (fun p => (s.pcb p).pid) = fun p => (s'.pcb p).pid := funext fun p => by rw [hpcb]
  have hlists := h.lists.remove hq
  rw [hpids, ← t1, ← herase] at hlists
  refine ⟨?_, ?_, ?_, hlists.list, hlists.hash,
    fun p hpl => h.kids_reap hql hcur hp hpcb (Finset.mem_erase.1 hpl).2,
    fun p hpl => ?_, fun p hpl hpz => ?_, ?_,
    fun p hpl => ?_, fun p hpl r hrl hpr => ?_, fun p hpl => ?_, by rw [t3]; exact h.last,
    by rw [t4]; exact h.safe⟩
  · rw [t5]; exact Finset.mem_erase.2 ⟨hqi.symm, h.idle⟩
  · rw [t5, hpcb]; exact h.idleParent
  · rw [t5, hpcb]; exact h.idleAlive
  · rw [hmem] at hpl
    obtain ⟨r, hr, hpr, hne⟩ := h.parent p hpl.2
    refine ⟨r, Finset.mem_erase.2 ⟨?_, hr⟩, by rw [hpcb]; exact hpr, hne⟩
    rintro rfl
    exact hchild p (Finset.mem_erase.1 hpl.2).2 hpr
  · obtain ⟨hpq, hpl⟩ := Finset.mem_erase.1 hpl
    rw [hpcb] at hpz ⊢
    have hcp := h.zombie p hpl hpz
    have : p ≠ cur := by
      rintro rfl
      obtain ⟨ks, ⟨hkc, -⟩, hks⟩ := h.kids p hcur
      rw [hcp] at hkc
      obtain rfl := hkc.nil_iff.1 rfl
      exact absurd ((hks q).2 ⟨hql, hp⟩) (by simp)
    simpa [this] using hcp
  · have hpos := Finset.card_pos.2 ⟨q, hql⟩
    rw [t2, Finset.card_erase_of_mem hql]
    have := h.count
    show s.nrProcess - 1 = _
    omega
  · rw [hpcb]; exact h.pidRange p ((hmem p).1 hpl).2
  · rw [hpcb, hpcb] at hpr
    exact h.pidInj p ((hmem p).1 hpl).2 r ((hmem r).1 hrl).2 hpr
  · rw [hpcb, t3, t4]; exact h.gap p ((hmem p).1 hpl).2

end Procs

end Ucore
