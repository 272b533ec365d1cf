/-
  `do_exit` and the search of `do_wait`.

  * `reparent_spec`: the loop of `do_exit` moves the children of `current`, one by one, to the front
    of the chain of `initproc`;
  * `Tree.exit`: the table stays consistent, and no assertion of `wakeup_proc` fails;
  * `Tree.waitSearch_spec`: what `do_wait` finds is a zombie child.
-/
import Ucore.Process.TreeOps

namespace Ucore

open Intrusive

set_option linter.unusedSectionVars false

variable {P : Type} [DecidableEq P]

namespace Procs

variable {s s' : Procs P} {live : Finset P} {p q x cur init : P}

/-- The sibling pointers of a state. -/
abbrev Siblings (s : Procs P) : Option P → Option P → List P → Prop :=
  Chain (fun q => (s.pcb q).optr) (fun q => (s.pcb q).yptr)

/-- The children `rest` of `cur` join the children `is` of `init`, last one first. -/
theorem reparent_spec (hne : cur ≠ init) :
    ∀ {rest is : List P} {k : ℕ} {s : Procs P} {y : Option P},
    s.Siblings y (s.pcb cur).cptr rest → s.Siblings none (s.pcb init).cptr is →
    (rest ++ is).Nodup → rest.length < k → (s.pcb init).run.state ≠ .zombie →
    ∃ s', reparent cur init k s = some s' ∧ SameTable s s' ∧ (s'.pcb cur).cptr = none ∧
      s'.Siblings none (s'.pcb init).cptr (rest.reverse ++ is) ∧
      ∀ p, (p ∉ rest ++ is → (s'.pcb p).optr = (s.pcb p).optr ∧ (s'.pcb p).yptr = (s.pcb p).yptr) ∧
        (p ≠ cur → p ≠ init → (s'.pcb p).cptr = (s.pcb p).cptr) ∧
        (s'.pcb p).parent = (if p ∈ rest then some init else (s.pcb p).parent) ∧
        (s'.pcb p).pid = (s.pcb p).pid ∧ (s'.pcb p).exitCode = (s.pcb p).exitCode ∧
        (p ≠ init → (s'.pcb p).run = (s.pcb p).run) ∧ (s'.pcb init).run.state ≠ .zombie
  | [], is, k + 1, s, y, hc, hi, _, _, hz => by
    have hcn : (s.pcb cur).cptr = none := hc
    exact ⟨s, by simp [reparent, hcn], SameTable.refl s, hcn, hi, fun p => by simp [hz]⟩
  | x :: rest, is, k + 1, s, y, hc, hi, hnd, hk, hz => by
    obtain ⟨hcx, -, hrest⟩ := hc
    simp only [List.cons_append, List.nodup_cons, List.mem_append, not_or] at hnd
    obtain ⟨⟨hxr, hxi⟩, hnd⟩ := hnd
    -- the state after the assignments of one round
    obtain ⟨s₁, hs₁⟩ : ∃ s₁, s₁ = ((((((s.setCptr cur (s.pcb x).optr).setYptr x none).setOptr x
      (s.pcb init).cptr).setYptr? (s.pcb init).cptr (some x)).setParent x (some init)).setCptr init
        (some x)) := ⟨_, rfl⟩
    have hpcb₁ : ∀ p, s₁.pcb p = { s.pcb p with
        cptr := if p = init then some x else if p = cur then (s.pcb x).optr else (s.pcb p).cptr
        yptr := if (s.pcb init).cptr = some p then some x else
          if p = x then none else (s.pcb p).yptr
        optr := if p = x then (s.pcb init).cptr else (s.pcb p).optr
        parent := if p = x then some init else (s.pcb p).parent } := fun p => by simp [hs₁]
    -- and after the wakeup
    have hz₁ : (s₁.pcb init).run.state ≠ .zombie := by rw [hpcb₁]; exact hz
    have ht₁ : SameTable s s₁ := hs₁ ▸ ⟨rfl, rfl, rfl, rfl, rfl, rfl, rfl⟩
    obtain ⟨s₂, g, hs₂, ht₂, hg, hpcb₂⟩ :=
      wakeupProcIf_spec s₁ init ((s₁.pcb x).run.state = .zombie ∧
      (s₁.pcb init).run.waitState = wtChild) hz₁
    have hinit : ∀ z, (s.pcb init).cptr = some z → z ∈ is := fun z hz' => by
      cases is with
      | nil => have : (s.pcb init).cptr = none := hi
               rw [this] at hz'; cases hz'
      | cons i is => have := hi.1
                     rw [hz', Option.some.injEq] at this; simp [this]
    have hfields : ∀ p, (s₂.pcb p).optr = (if p = x then (s.pcb init).cptr else (s.pcb p).optr) ∧
        (s₂.pcb p).yptr = (if (s.pcb init).cptr = some p then some x else
          if p = x then none else (s.pcb p).yptr) := fun p => by simp [hpcb₂, hpcb₁]
    have hrest₂ : s₂.Siblings (some x) (s₂.pcb cur).cptr rest := by
      have hcc : (s₂.pcb cur).cptr = (s.pcb x).optr := by simp [hpcb₂, hpcb₁, hne]
      rw [hcc]
      refine hrest.congr (fun z hz' => ?_) fun z hz' => ?_
      · have : z ≠ x := by rintro rfl; exact hxr hz'
        simp [(hfields z).1, this]
      · have h1 : z ≠ x := by rintro rfl; exact hxr hz'
        have h2 : (s.pcb init).cptr ≠ some z := fun h =>
          (List.nodup_append.1 hnd).2.2 z hz' z (hinit z h) rfl
        simp [(hfields z).2, h1, h2]
    have hinit₂ : s₂.Siblings none (s₂.pcb init).cptr (x :: is) := by
      have hci : (s₂.pcb init).cptr = some x := by simp [hpcb₂, hpcb₁]
      rw [hci]
      have hxx : (s.pcb init).cptr ≠ some x := fun h => hxi (hinit x h)
      refine hi.push (by simp [(hfields x).1]) (by simp [(hfields x).2, hxx]) (fun z hz' => ?_)
        (fun z hz' => ?_) (List.nodup_append.1 hnd).2.1
      · have : z ≠ x := by rintro rfl; exact hxi hz'
        simp [(hfields z).1, this]
      · have : z ≠ x := by rintro rfl; exact hxi hz'
        simp [(hfields z).2, this]
    have hnd₂ : (rest ++ x :: is).Nodup := by
      rw [List.nodup_middle, List.nodup_cons]; simp [hxr, hxi, hnd]
    obtain ⟨s', hs', ht', hcn, hch, hall⟩ := reparent_spec hne hrest₂ hinit₂ hnd₂
      (by simpa using hk) (by simpa [hpcb₂] using hg)
    refine ⟨s', ?_, (ht₁.trans ht₂).trans ht', hcn, by simpa using hch, fun p => ?_⟩
    · simp only [reparent, hcx, pcb_setCptr, pcb_setYptr, pcb_setOptr, hne.symm, if_false, ← hs₁,
        hs₂, Option.bind_eq_bind, Option.bind_some, hs']
    · obtain ⟨h1, h2, h3, h4, h5, h6, h7⟩ := hall p
      refine ⟨fun hp => ?_, fun hpc hpi => ?_, ?_, ?_, ?_, fun hpi => ?_, h7⟩
      · simp only [List.cons_append, List.mem_cons, not_or] at hp
        have hpi : (s.pcb init).cptr ≠ some p := fun h => hp.2 (by simp [hinit p h])
        obtain ⟨g1, g2⟩ := h1 (by
          simp only [List.mem_append, List.mem_cons, not_or] at hp ⊢; tauto)
        rw [g1, g2, (hfields p).1, (hfields p).2]
        simp [hp.1, hpi]
      · rw [h2 hpc hpi]; simp [hpcb₂, hpcb₁, hpc, hpi]
      · rw [h3]
        by_cases hpx : p = x
        · subst hpx; simp [hxr, hpcb₂, hpcb₁]
        · simp [hpx, hpcb₂, hpcb₁]
      · rw [h4]; simp [hpcb₂, hpcb₁]
      · rw [h5]; simp [hpcb₂, hpcb₁]
      · rw [h6 hpi]; simp [hpcb₂, hpcb₁, hpi]

/-- The children of `cur` have joined those of `init`; the other chains are as they were. -/
theorem Tree.kids_exit (h : Tree s live) (hne : cur ≠ init) {rest is : List P}
    (hrest : ∀ x, x ∈ rest ↔ x ∈ live ∧ (s.pcb x).parent = some cur)
    (his : ∀ x, x ∈ is ↔ x ∈ live ∧ (s.pcb x).parent = some init) (hnd : (rest ++ is).Nodup)
    (hcn : (s'.pcb cur).cptr = none)
    (hch : s'.Siblings none (s'.pcb init).cptr (rest.reverse ++ is))
    (hptr : ∀ p, p ∉ rest ++ is →
      (s'.pcb p).optr = (s.pcb p).optr ∧ (s'.pcb p).yptr = (s.pcb p).yptr)
    (hcptr : ∀ p, p ≠ cur → p ≠ init → (s'.pcb p).cptr = (s.pcb p).cptr)
    (hparent : ∀ p, (s'.pcb p).parent = if p ∈ rest then some init else (s.pcb p).parent)
    (hpl : p ∈ live) :
    ∃ qs, s'.Children p qs ∧ ∀ x, x ∈ qs ↔ x ∈ live ∧ (s'.pcb x).parent = some p := by
  by_cases hpc : p = cur
  · subst hpc
    refine ⟨[], ⟨hcn, by simp⟩, fun x => ?_⟩
    simp only [List.not_mem_nil, false_iff, not_and, hparent]
    intro hx
    split_ifs with hxr
    · rw [Option.some.injEq]; exact hne.symm
    · exact fun hxp => hxr ((hrest x).2 ⟨hx, hxp⟩)
  · by_cases hpi : p = init
    · subst hpi
      have hdis : ∀ x ∈ rest, x ∉ is := fun x hx hx' => (List.nodup_append.1 hnd).2.2 x hx x hx' rfl
      refine ⟨rest.reverse ++ is, ⟨hch, ?_⟩, fun x => ?_⟩
      · rw [List.nodup_append] at hnd ⊢
        simpa using hnd
      · simp only [List.mem_append, List.mem_reverse, hparent]
        constructor
        · rintro (hx | hx)
          · exact ⟨((hrest x).1 hx).1, by rw [if_pos hx]⟩
          · exact ⟨((his x).1 hx).1, by rw [if_neg fun hxr => hdis x hxr hx, ((his x).1 hx).2]⟩
        · rintro ⟨hx, hxp⟩
          split_ifs at hxp with hxr
          · exact Or.inl hxr
          · exact Or.inr ((his x).2 ⟨hx, hxp⟩)
    · obtain ⟨qs, ⟨hc, hqnd⟩, hqs⟩ := h.kids p hpl
      have hout : ∀ x ∈ qs, x ∉ rest ∧ x ∉ is := fun x hx => by
        have hxp := ((hqs x).1 hx).2
        refine ⟨fun hxr => hpc ?_, fun hxi => hpi ?_⟩
        · rw [((hrest x).1 hxr).2, Option.some.injEq] at hxp; exact hxp.symm
        · rw [((his x).1 hxi).2, Option.some.injEq] at hxp; exact hxp.symm
      have hkept : ∀ x ∈ qs,
          (s'.pcb x).optr = (s.pcb x).optr ∧ (s'.pcb x).yptr = (s.pcb x).yptr :=
        fun x hx => hptr x (by simp [hout x hx])
      refine ⟨qs, ⟨?_, hqnd⟩, fun x => ?_⟩
      · rw [hcptr p hpc hpi]
        exact hc.congr (fun x hx => (hkept x hx).1) fun x hx => (hkept x hx).2
      · rw [hqs]
        refine and_congr_right fun hx => ?_
        rw [hparent]
        split_ifs with hxr
        · rw [((hrest x).1 hxr).2, Option.some.injEq, Option.some.injEq]
          exact ⟨fun hcp => absurd hcp.symm hpc, fun hip => absurd hip.symm hpi⟩
        · rfl

/-- **Exit.** The process `cur` becomes a zombie without children. -/
theorem Tree.exit (h : Tree s live) (hcard : live.card ≤ fuel) (hcur : cur ∈ live.erase s.idleproc)
    (hinit : s.initproc = some init) (hil : init ∈ live)
    (hip : (s.pcb init).parent = some s.idleproc) (hiz : (s.pcb init).run.state ≠ .zombie)
    (hne : cur ≠ init) (errorCode : ℤ) :
    ∃ s', s.doExit cur errorCode = some s' ∧ Tree s' live ∧ SameTable s s' ∧
      (s'.pcb init).parent = some s.idleproc ∧ (s'.pcb init).run.state ≠ .zombie ∧
      ∀ p, ((s'.pcb p).run.state = .zombie → p = cur ∨ (s.pcb p).run.state = .zombie) ∧
        (p ∉ live → (s'.pcb p).run = (s.pcb p).run ∧ (s'.pcb p).cptr = (s.pcb p).cptr ∧
          (s'.pcb p).parent = (s.pcb p).parent) := by
  obtain ⟨hci, hcl⟩ := Finset.mem_erase.1 hcur
  obtain ⟨par, hpar, hcp, hcpar⟩ := h.parent cur hcur
  obtain ⟨rest, ⟨hrc, hrnd⟩, hrest⟩ := h.kids cur hcl
  obtain ⟨is, ⟨hic, hind⟩, his⟩ := h.kids init hil
  -- the parent has a child, so it is no zombie
  have hparz : (s.pcb par).run.state ≠ .zombie := fun hz => by
    obtain ⟨ks, ⟨hkc, -⟩, hks⟩ := h.kids par hpar
    rw [h.zombie par hpar hz] at hkc
    obtain rfl := hkc.nil_iff.1 rfl
    exact absurd ((hks cur).2 ⟨hcl, hcp⟩) (by simp)
  obtain ⟨s₁, hs₁⟩ : ∃ s₁, s₁ = (s.setRun cur ⟨.zombie, (s.pcb cur).run.waitState⟩).setExitCode cur
    errorCode := ⟨_, rfl⟩
  have hpcb₁ : ∀ p, s₁.pcb p = { s.pcb p with
      run := if p = cur then ⟨.zombie, (s.pcb cur).run.waitState⟩ else (s.pcb p).run
      exitCode := if p = cur then errorCode else (s.pcb p).exitCode } := fun p => by simp [hs₁]
  have ht₁ : SameTable s s₁ := hs₁ ▸ ⟨rfl, rfl, rfl, rfl, rfl, rfl, rfl⟩
  obtain ⟨s₂, g, hs₂, ht₂, hg, hpcb₂⟩ := wakeupProcIf_spec s₁ par
    ((s₁.pcb par).run.waitState = wtChild) (by rw [hpcb₁]; simpa [hcpar.symm] using hparz)
  have hfam : ∀ p, (s₂.pcb p).optr = (s.pcb p).optr ∧ (s₂.pcb p).yptr = (s.pcb p).yptr ∧
      (s₂.pcb p).cptr = (s.pcb p).cptr ∧ (s₂.pcb p).parent = (s.pcb p).parent ∧
      (s₂.pcb p).pid = (s.pcb p).pid := fun p => by simp [hpcb₂, hpcb₁]
  have hrun : ∀ p, (s₂.pcb p).run.state = .zombie → p = cur ∨ (s.pcb p).run.state = .zombie := by
    intro p hz
    simp only [hpcb₂, hpcb₁] at hz
    split_ifs at hz with h1 h2
    exacts [absurd hz hg, Or.inl h2, Or.inr hz]
  have hdis : ∀ x ∈ rest, x ∉ is := fun x hx hx' => by
    have h1 := ((hrest x).1 hx).2
    rw [((his x).1 hx').2, Option.some.injEq] at h1
    exact hne h1.symm
  have hlen : rest.length < fuel := h.length_lt hcard hrnd fun x hx =>
    Finset.mem_erase.2
      ⟨(h.parent_mem ((hrest x).1 hx).1 ((hrest x).1 hx).2).2.1, ((hrest x).1 hx).1⟩
  have hrc₂ : s₂.Siblings none (s₂.pcb cur).cptr rest := by
    rw [(hfam cur).2.2.1]
    exact hrc.congr (fun x _ => (hfam x).1) fun x _ => (hfam x).2.1
  have hic₂ : s₂.Siblings none (s₂.pcb init).cptr is := by
    rw [(hfam init).2.2.1]
    exact hic.congr (fun x _ => (hfam x).1) fun x _ => (hfam x).2.1
  have hnd : (rest ++ is).Nodup := List.nodup_append.2 ⟨hrnd, hind, fun x hx z hz hxz =>
    hdis x hx (hxz ▸ hz)⟩
  have hz₂ : (s₂.pcb init).run.state ≠ .zombie := fun hz =>
    (hrun init hz).elim (fun hc => hne hc.symm) hiz
  obtain ⟨s', hs', ht', hcn, hch, hall⟩ := reparent_spec hne hrc₂ hic₂ hnd hlen hz₂
  have ht : SameTable s s' := (ht₁.trans ht₂).trans ht'
  obtain ⟨t1, t2, t3, t4, t5, t6, t7⟩ := ht
  have hparent : ∀ p, (s'.pcb p).parent = if p ∈ rest then some init else (s.pcb p).parent :=
    fun p => by rw [(hall p).2.2.1, (hfam p).2.2.2.1]
  have hpid : ∀ p, (s'.pcb p).pid = (s.pcb p).pid := fun p => by
    rw [(hall p).2.2.2.1, (hfam p).2.2.2.2]
  have hzom : ∀ p, (s'.pcb p).run.state = .zombie → p = cur ∨ (s.pcb p).run.state = .zombie := by
    intro p hz
    by_cases hpi : p = init
    · subst hpi; exact absurd hz (hall p).2.2.2.2.2.2
    · rw [(hall p).2.2.2.2.2.1 hpi] at hz; exact hrun p hz
  have hidle : s.idleproc ∉ rest := fun hm => by
    have := ((hrest _).1 hm).2
    rw [h.idleParent] at this; cases this
  have hires : init ∉ rest := fun hm => by
    have := ((hrest _).1 hm).2
    rw [hip, Option.some.injEq] at this; exact hci this.symm
  have hnoti : s.idleproc ≠ cur := hci.symm
  refine ⟨s', ?_, ?_, ⟨t1, t2, t3, t4, t5, t6, t7⟩, by rw [hparent, if_neg hires, hip],
    (hall init).2.2.2.2.2.2, fun p => ⟨hzom p, fun hpl => ?_⟩⟩
  · have h1 : ¬ (cur = s.idleproc ∨ some cur = s.initproc) := by
      rw [hinit, Option.some.injEq]; exact not_or.2 ⟨hci, hne⟩
    have hcp₁ : (s₁.pcb cur).parent = some par := by rw [hpcb₁]; exact hcp
    rw [doExit, if_neg h1]
    simp only [hinit, ← hs₁, hcp₁, hs₂, Option.bind_eq_bind, Option.bind_some]
    exact hs'
  · have he : live.erase s'.idleproc = live.erase s.idleproc := by rw [t5]
    refine ⟨by rw [t5]; exact h.idle, by rw [t5, hparent, if_neg hidle, h.idleParent],
      by rw [t5]; exact fun hz => (hzom _ hz).elim hnoti h.idleAlive, by rw [t1, he]; exact h.list,
      fun i hi => ?_,
      fun p hpl => h.kids_exit hne hrest his hnd hcn hch
        (fun p hp => ⟨((hall p).1 hp).1.trans (hfam p).1, ((hall p).1 hp).2.trans (hfam p).2.1⟩)
        (fun p h1 h2 => ((hall p).2.1 h1 h2).trans (hfam p).2.2.1) hparent hpl,
      fun p hpl => ?_, fun p hpl hz => ?_, by rw [t2]; exact h.count,
      fun p hpl => by rw [hpid]; rw [he] at hpl; exact h.pidRange p hpl, fun p hpl r hrl hpr => ?_,
      fun p hpl => by rw [hpid, t3, t4]; rw [he] at hpl; exact h.gap p hpl,
      by rw [t3]; exact h.last, by rw [t4]; exact h.safe⟩
    · obtain ⟨ps, hc, hps⟩ := h.hash i hi
      exact ⟨ps, t1 ▸ hc, fun p => by rw [hps, he, hpid]⟩
    · rw [he] at hpl
      rw [hparent]
      split_ifs with hpr
      · exact ⟨init, hil, rfl, fun hpi => hires (hpi ▸ hpr)⟩
      · exact h.parent p hpl
    · rcases hzom p hz with rfl | hz'
      · exact hcn
      · have hpi : p ≠ init := by rintro rfl; exact hiz hz'
        by_cases hpc : p = cur
        · exact hpc ▸ hcn
        · rw [(hall p).2.1 hpc hpi, (hfam p).2.2.1]; exact h.zombie p hpl hz'
    · rw [he] at hpl hrl; rw [hpid, hpid] at hpr
      exact h.pidInj p hpl r hrl hpr
  · have h1 : p ≠ cur := by rintro rfl; exact hpl hcl
    have h2 : p ≠ init := by rintro rfl; exact hpl hil
    have h3 : p ≠ par := by rintro rfl; exact hpl hpar
    have h4 : p ∉ rest := fun hm => hpl ((hrest p).1 hm).1
    exact ⟨by rw [(hall p).2.2.2.2.2.1 h2, hpcb₂, hpcb₁]; simp [h1, h3],
      by rw [(hall p).2.1 h1 h2, (hfam p).2.2.1], by rw [hparent, if_neg h4]⟩

/-! ## The search of `do_wait` -/

theorem childWalk_spec : ∀ {qs : List P} {k : ℕ} {y head : Option P} {b : Bool},
    s.Siblings y head qs → qs.length < k →
      s.childWalk k head b =
        some (b || !qs.isEmpty, qs.find? fun p => (s.pcb p).run.state = .zombie)
  | [], k + 1, y, head, b, hc, _ => by
    have hn : head = none := hc
    simp [hn, childWalk]
  | q :: qs, k + 1, y, head, b, hc, hk => by
    obtain ⟨rfl, -, hc⟩ := hc
    by_cases hz : (s.pcb q).run.state = .zombie
    · simp [childWalk, hz]
    · have ih := childWalk_spec (b := true) hc (by simpa using hk)
      simp [childWalk, hz, ih]

/-- **What `do_wait` finds** is a child that has exited. -/
theorem Tree.waitSearch_spec (h : Tree s live) (hcard : live.card ≤ fuel) (hcur : cur ∈ live)
    (pid : ℤ) : ∃ haskid o, s.waitSearch cur pid = some (haskid, o) ∧
      ∀ q, o = some q → q ∈ live.erase s.idleproc ∧ (s.pcb q).parent = some cur ∧
        (s.pcb q).run.state = .zombie := by
  by_cases hp : pid = 0
  · obtain ⟨qs, ⟨hc, hnd⟩, hqs⟩ := h.kids cur hcur
    have hidle : ∀ x ∈ qs, x ∈ live.erase s.idleproc := fun x hx =>
      Finset.mem_erase.2 ⟨(h.parent_mem ((hqs x).1 hx).1 ((hqs x).1 hx).2).2.1, ((hqs x).1 hx).1⟩
    have hlen : qs.length < fuel := h.length_lt hcard hnd hidle
    refine ⟨!qs.isEmpty, qs.find? fun p => (s.pcb p).run.state = .zombie, ?_, fun q hq => ?_⟩
    · simp only [waitSearch, hp, ne_eq, not_true, if_false, childWalk_spec hc hlen, Bool.false_or]
    have hm := List.mem_of_find?_eq_some hq
    have hz := List.find?_some hq
    exact ⟨hidle q hm, ((hqs q).1 hm).2, by simpa using hz⟩
  · obtain ⟨o, ho, hoq⟩ := h.findProc_spec hcard pid
    cases o with
    | none =>
      exact ⟨false, none, by simp [waitSearch, hp, ho], by simp⟩
    | some q =>
      by_cases hpar : (s.pcb q).parent = some cur
      · refine ⟨true, if (s.pcb q).run.state = .zombie then some q else none,
          by simp [waitSearch, hp, ho, hpar], fun x hx => ?_⟩
        split_ifs at hx with hz
        obtain rfl : q = x := by simpa using hx
        exact ⟨((hoq q).1 rfl).1, hpar, hz⟩
      · exact ⟨false, none, by simp [waitSearch, hp, ho, hpar], by simp⟩

end Procs

end Ucore
