/-
  Locks taken in order.

  A process runs a program that takes and releases locks, with everything else it does left open
  (`Cmd.pick`, `Cmd.loop`).  The locks are hand-off semaphores.  Every lock has a rank, and a
  program is `Ordered` from `r` on when it only takes locks of rank `r` or more, each of higher rank
  than those it holds, and releases what it takes.

  * `Ordered.locked`, `Ordered.cons`, …: the rules that show programs ordered, command by command;
  * `Sys.Reach.no_cycle`: when all programs are ordered, no processes wait for each other;
  * `Sys.Reach.no_self`: no process takes a lock that it holds.
-/
import Ucore.Lib.Mutex
import Mathlib.Data.Set.Basic
import Mathlib.Logic.Relation

namespace LockOrder

open HandOff

/-- What a program does to locks. -/
inductive Cmd (L : Type) : Type 1 where
  | skip
  | down (l : L)
  | up (l : L)
  | seq (a b : Cmd L)
  | pick {ι : Type} (f : ι → Cmd L)
  | loop (a : Cmd L)

variable {P L : Type}

namespace Cmd

/-- One command after the other. -/
def block : List (Cmd L) → Cmd L
  | [] => skip
  | c :: cs => seq c (block cs)

def choice (a b : Cmd L) : Cmd L := pick fun i : Bool => if i then a else b

/-- A piece that an early return, or a condition, may leave out. -/
def opt (a : Cmd L) : Cmd L := choice skip a

/-- `a` leads from the held locks `H` to such that satisfy `Q`, and takes every lock above those it
    holds. -/
def Safe (rank : L → ℕ) [DecidableEq L] : Cmd L → List L → (List L → Prop) → Prop
  | skip, H, Q => Q H
  | down l, H, Q => (∀ k ∈ H, rank k < rank l) ∧ Q (l :: H)
  | up l, H, Q => l ∈ H ∧ Q (H.erase l)
  | seq a b, H, Q => a.Safe rank H fun H' => b.Safe rank H' Q
  | pick f, H, Q => ∀ i, (f i).Safe rank H Q
  | loop a, H, Q => a.Safe rank H (· = H) ∧ Q H

end Cmd

variable {rank : L → ℕ} [DecidableEq L] {a b c : Cmd L} {cs : List (Cmd L)} {H : List L}
  {Q Q' : List L → Prop} {r r' : ℕ} {l : L}

theorem Cmd.Safe.mono (h : c.Safe rank H Q) (hq : ∀ H, Q H → Q' H) : c.Safe rank H Q' := by
  induction c generalizing H Q Q' with
  | skip => exact hq _ h
  | down l => exact ⟨h.1, hq _ h.2⟩
  | up l => exact ⟨h.1, hq _ h.2⟩
  | seq a b iha ihb => exact iha h fun H' h' => ihb h' hq
  | pick f ih => exact fun i => ih i (h i) hq
  | loop a _ => exact ⟨h.1, hq _ h.2⟩

/-! ## Ordered programs -/

def Ordered (rank : L → ℕ) (r : ℕ) (c : Cmd L) : Prop :=
  ∀ H, (∀ k ∈ H, rank k < r) → c.Safe rank H (· = H)

namespace Ordered

theorem mono (h : Ordered rank r' c) (hr : r ≤ r') : Ordered rank r c :=
  fun H hH => h H fun k hk => (hH k hk).trans_le hr

theorem skip : Ordered rank r .skip := fun _ _ => rfl

theorem seq (ha : Ordered rank r a) (hb : Ordered rank r b) : Ordered rank r (.seq a b) := by
  intro H hH
  refine (ha H hH).mono ?_
  rintro H' rfl
  exact hb H' hH

theorem nil : Ordered rank r (.block []) := skip

theorem cons (h : Ordered rank r c) (hs : Ordered rank r (.block cs)) :
    Ordered rank r (.block (c :: cs)) := seq h hs

theorem both (ha : Ordered rank r a) (hb : Ordered rank r b) : Ordered rank r (.block [a, b]) :=
  cons ha (cons hb nil)

theorem pick {ι : Type} {f : ι → Cmd L} (h : ∀ i, Ordered rank r (f i)) :
    Ordered rank r (.pick f) := fun H hH i => h i H hH

theorem choice (ha : Ordered rank r a) (hb : Ordered rank r b) : Ordered rank r (.choice a b) :=
  pick fun i => by cases i <;> simpa

theorem opt (h : Ordered rank r c) : Ordered rank r (.opt c) := skip.choice h

theorem loop (h : Ordered rank r c) : Ordered rank r (.loop c) := fun H hH => ⟨h H hH, rfl⟩

/-- **Taking a lock** for a piece of program that takes only locks above it. -/
theorem locked (hr : r ≤ rank l) (h : Ordered rank (rank l + 1) c) :
    Ordered rank r (.block [.down l, c, .up l]) := by
  intro H hH
  refine ⟨fun k hk => (hH k hk).trans_le hr, (h (l :: H) ?_).mono ?_⟩
  · intro k hk
    rcases List.mem_cons.1 hk with rfl | hk
    · exact Nat.lt_succ_self _
    · exact (hH k hk).trans_le (hr.trans (Nat.le_succ _))
  · rintro H' rfl
    exact ⟨List.mem_cons_self, by simp [Cmd.Safe, Cmd.block]⟩

end Ordered

/-! ## Processes -/

structure Proc (L : Type) where
  /-- What is still to be run. -/
  cont : List (Cmd L)
  held : List L
  /-- The lock in whose `down` the process is. -/
  waiting : Option L

structure Sys (P L : Type) where
  sem : L → Sema P
  proc : P → Proc L

/-- The commands that leave the locks alone. -/
inductive Next : List (Cmd L) → List (Cmd L) → Prop where
  | skip (k : List (Cmd L)) : Next (.skip :: k) k
  | seq (a b : Cmd L) (k : List (Cmd L)) : Next (.seq a b :: k) (a :: b :: k)
  | pick {ι : Type} (f : ι → Cmd L) (i : ι) (k : List (Cmd L)) : Next (.pick f :: k) (f i :: k)
  | loopExit (a : Cmd L) (k : List (Cmd L)) : Next (.loop a :: k) k
  | loopEnter (a : Cmd L) (k : List (Cmd L)) : Next (.loop a :: k) (a :: .loop a :: k)

namespace Sys

variable [DecidableEq P]

def setProc (s : Sys P L) (p : P) (g : Proc L) : Sys P L :=
  { s with proc := Function.update s.proc p g }

def setSem (s : Sys P L) (l : L) (a : Sema P) : Sys P L :=
  { s with sem := Function.update s.sem l a }

inductive Step : Sys P L → Sys P L → Prop where
  | run {s : Sys P L} {p : P} {k k' : List (Cmd L)} {H : List L} :
      s.proc p = ⟨k, H, none⟩ → Next k k' → Step s (s.setProc p ⟨k', H, none⟩)
  | take {s : Sys P L} {p : P} {l : L} {k : List (Cmd L)} {H : List L} :
      s.proc p = ⟨.down l :: k, H, none⟩ → 0 < (s.sem l).value →
      Step s ((s.setSem l ((s.sem l).down p).1).setProc p ⟨k, l :: H, none⟩)
  | block {s : Sys P L} {p : P} {l : L} {k : List (Cmd L)} {H : List L} :
      s.proc p = ⟨.down l :: k, H, none⟩ → ¬ 0 < (s.sem l).value →
      Step s ((s.setSem l ((s.sem l).down p).1).setProc p ⟨k, H, some l⟩)
  | resume {s : Sys P L} {p : P} {l : L} {k : List (Cmd L)} {H : List L} :
      s.proc p = ⟨k, H, some l⟩ → p ∉ (s.sem l).queue → Step s (s.setProc p ⟨k, l :: H, none⟩)
  | up {s : Sys P L} {p : P} {l : L} {k : List (Cmd L)} {H : List L} :
      s.proc p = ⟨.up l :: k, H, none⟩ →
      Step s ((s.setSem l (s.sem l).up.1).setProc p ⟨k, H.erase l, none⟩)

/-- The processes start their programs, with all locks free. -/
def start (prog : P → Cmd L) : Sys P L := ⟨fun _ => ⟨1, []⟩, fun p => ⟨[prog p], [], none⟩⟩

inductive Reach (prog : P → Cmd L) : Sys P L → Prop where
  | init : Reach prog (start prog)
  | step {s s' : Sys P L} : Reach prog s → Step s s' → Reach prog s'

/-- A process runs on, up to a command that takes or releases a lock. -/
theorem Reach.runs {prog : P → Cmd L} {s : Sys P L} {p : P} {k k' : List (Cmd L)} {H : List L}
    (h : Reach prog s) (hp : s.proc p = ⟨k, H, none⟩) (hn : Relation.ReflTransGen Next k k') :
    Reach prog (s.setProc p ⟨k', H, none⟩) := by
  induction hn with
  | refl => rwa [setProc, ← hp, Function.update_eq_self]
  | tail _ hn ih =>
    have := ih.step (.run (p := p) (Function.update_self ..) hn)
    simpa only [setProc, Function.update_idem] using this

/-- In the queue of the lock. -/
def Blocked (s : Sys P L) (p : P) (l : L) : Prop := p ∈ (s.sem l).queue

/-- Behind the `down` of the lock, or on the way out of it with the permit. -/
def Holds (s : Sys P L) (p : P) (l : L) : Prop :=
  l ∈ (s.proc p).held ∨ ((s.proc p).waiting = some l ∧ p ∉ (s.sem l).queue)

end Sys

/-! ## Invariant -/

/-- The rest of the program is safe. -/
def SafeList (rank : L → ℕ) : List (Cmd L) → List L → Prop
  | [], _ => True
  | c :: k, H => c.Safe rank H (SafeList rank k)

theorem Next.safe {k k' : List (Cmd L)} (hn : Next k k') (h : SafeList rank k H) :
    SafeList rank k' H := by
  cases hn with
  | skip => exact h
  | seq a b k => exact h
  | pick f i k => exact h i
  | loopExit a k => exact h.2
  | loopEnter a k =>
    refine Cmd.Safe.mono h.1 ?_
    rintro H' rfl
    exact h

/-- A process keeps to the order. -/
structure Proc.Ok (rank : L → ℕ) (g : Proc L) : Prop where
  nodup : g.held.Nodup
  running : g.waiting = none → SafeList rank g.cont g.held
  waiting : ∀ l, g.waiting = some l →
    (∀ k ∈ g.held, rank k < rank l) ∧ SafeList rank g.cont (l :: g.held)

/-- Where the process is with respect to a lock. -/
def Proc.phase (l : L) (g : Proc L) : Phase :=
  if l ∈ g.held then .inside else if g.waiting = some l then .waiting else .outside

omit [DecidableEq L] in
theorem notMem_of_rank (h : ∀ k ∈ H, rank k < rank l) : l ∉ H := fun hl => (h l hl).false

variable [DecidableEq P]

namespace Sys

structure Inv (rank : L → ℕ) (s : Sys P L) : Prop where
  proc : ∀ p, (s.proc p).Ok rank
  lock : ∀ l, ∃ own, Mutex (s.sem l) own fun p => (s.proc p).phase l

variable {s s' : Sys P L} {p q : P} {g : Proc L} {prog : P → Cmd L}

theorem phase_update (f : P → Proc L) (p : P) (g : Proc L) (l : L) :
    (fun q => (Function.update f p g q).phase l) =
      Function.update (fun q => (f q).phase l) p (g.phase l) := by
  ext q
  by_cases hq : q = p
  · subst hq; simp
  · simp [hq]

/-- One process moves, and one lock with it. -/
theorem Inv.move (h : s.Inv rank) {a : Sema P} (hg : g.Ok rank)
    (hl : ∃ own, Mutex a own (Function.update (fun q => (s.proc q).phase l) p (g.phase l)))
    (ho : ∀ k, k ≠ l → g.phase k = (s.proc p).phase k) :
    ((s.setSem l a).setProc p g).Inv rank := by
  refine ⟨fun q => ?_, fun k => ?_⟩
  · by_cases hq : q = p
    · subst hq; simpa [setProc, setSem] using hg
    · simpa [setProc, setSem, hq] using h.proc q
  · simp only [setProc, setSem, phase_update]
    by_cases hk : k = l
    · subst hk; simpa using hl
    · obtain ⟨own, m⟩ := h.lock k
      refine ⟨own, ?_⟩
      rw [ho k hk, Function.update_of_ne hk]
      simpa using m

/-- **A step** keeps every process in order, and every lock with one owner. -/
theorem Inv.step (h : s.Inv rank) (hs : Step s s') : s'.Inv rank := by
  cases hs with
  | @run p k k' H hp hn =>
    have hok := h.proc p
    rw [hp] at hok
    refine ⟨fun q => ?_, fun l => ?_⟩
    · by_cases hq : q = p
      · subst hq
        simp only [setProc, Function.update_self]
        exact ⟨hok.nodup, fun _ => hn.safe (hok.running rfl), fun l hl => by cases hl⟩
      · simpa [setProc, hq] using h.proc q
    · obtain ⟨own, m⟩ := h.lock l
      refine ⟨own, ?_⟩
      simp only [setProc, phase_update]
      rwa [show (⟨k', H, none⟩ : Proc L).phase l = (s.proc p).phase l by rw [hp]; rfl,
        Function.update_eq_self]
  | @take p l k H hp hv =>
    have hok := h.proc p
    rw [hp] at hok
    obtain ⟨hlt, hsafe⟩ := hok.running rfl
    have hl := notMem_of_rank hlt
    obtain ⟨own, m⟩ := h.lock l
    have hd := m.down (p := p) (by simp [Proc.phase, hp, hl])
    rw [if_pos hv] at hd
    refine h.move ⟨List.nodup_cons.2 ⟨hl, hok.nodup⟩, fun _ => hsafe, fun l hl => by cases hl⟩
      ⟨some p, ?_⟩ fun k hk => by simp [Proc.phase, hp, hk]
    simpa [Proc.phase, hv] using hd
  | @block p l k H hp hv =>
    have hok := h.proc p
    rw [hp] at hok
    obtain ⟨hlt, hsafe⟩ := hok.running rfl
    have hl := notMem_of_rank hlt
    obtain ⟨own, m⟩ := h.lock l
    have hd := m.down (p := p) (by simp [Proc.phase, hp, hl])
    rw [if_neg hv] at hd
    refine h.move ⟨hok.nodup, fun hw => absurd hw (by simp), fun l' hl' => ?_⟩ ⟨own, ?_⟩
      fun k hk => by simp [Proc.phase, hp, Ne.symm hk]
    · obtain rfl := Option.some.inj hl'
      exact ⟨hlt, hsafe⟩
    · simpa [Proc.phase, hv, hl] using hd
  | @resume p l k H hp hq =>
    have hok := h.proc p
    rw [hp] at hok
    obtain ⟨hlt, hsafe⟩ := hok.waiting l rfl
    have hl := notMem_of_rank hlt
    obtain ⟨own, m⟩ := h.lock l
    have hr := m.resume (p := p) (by simp [Proc.phase, hp, hl]) hq
    have := h.move (l := l) (a := s.sem l) (p := p) (g := ⟨k, l :: H, none⟩)
      ⟨List.nodup_cons.2 ⟨hl, hok.nodup⟩, fun _ => hsafe, fun l hl => by cases hl⟩
      ⟨own, by simpa [Proc.phase] using hr⟩ fun k hk => by simp [Proc.phase, hp, hk, Ne.symm hk]
    simpa [setSem] using this
  | @up p l k H hp =>
    have hok := h.proc p
    rw [hp] at hok
    obtain ⟨hl, hsafe⟩ := hok.running rfl
    obtain ⟨own, m⟩ := h.lock l
    have hu := m.up (p := p) (by simp [Proc.phase, hp, show l ∈ H from hl])
    have hnd : (H.erase l).Nodup := hok.nodup.erase l
    have hne : l ∉ H.erase l := fun hm => (List.Nodup.mem_erase_iff hok.nodup).1 hm |>.1 rfl
    refine h.move ⟨hnd, fun _ => hsafe, fun l hl => by cases hl⟩ ⟨(s.sem l).queue.head?, ?_⟩
      fun k hk => ?_
    · simpa [Proc.phase, hne] using hu
    · simp [Proc.phase, hp, List.mem_erase_of_ne hk]

theorem Reach.inv (hp : ∀ p, Ordered rank 0 (prog p)) (hr : Reach prog s) : s.Inv rank := by
  induction hr with
  | init =>
    refine ⟨fun p => ⟨List.nodup_nil, fun _ => ?_, fun l hl => by cases hl⟩, fun l => ⟨none, ?_⟩⟩
    · exact (hp p [] (by simp)).mono fun _ _ => trivial
    · simpa [start, Proc.phase] using Mutex.init
  | step _ hs ih => exact ih.step hs

/-! ## No process waits for itself -/

omit [DecidableEq P] in
/-- A blocked process waits for a lock above all it holds. -/
theorem Inv.blocked (h : s.Inv rank) (hb : s.Blocked p l) :
    (s.proc p).waiting = some l ∧ ∀ k, s.Holds p k → rank k < rank l := by
  obtain ⟨own, m⟩ := h.lock l
  have hph := m.queued p hb
  have hw : (s.proc p).waiting = some l := by
    simp only [Proc.phase] at hph
    split_ifs at hph with h1 h2
    exact h2
  refine ⟨hw, fun k hk => ?_⟩
  rcases hk with hk | ⟨hk, hq⟩
  · exact ((h.proc p).waiting l hw).1 k hk
  · obtain rfl : k = l := Option.some.inj (hk.symm.trans hw)
    exact absurd hb hq

/-- **No lock cycle**: among processes that all wait for each other, the one that waits for the
    highest lock would hold a higher one. -/
theorem Reach.no_cycle (hp : ∀ p, Ordered rank 0 (prog p)) {n : ℕ} (hn : ∀ l, rank l < n)
    (hr : Reach prog s) {S : Set P} (hS : S.Nonempty) :
    ¬ ∀ p ∈ S, ∃ l, s.Blocked p l ∧ ∃ q ∈ S, s.Holds q l := by
  intro hall
  have hi := hr.inv hp
  -- the ranks along a chain of waiting processes grow without bound
  have key : ∀ m, ∃ p ∈ S, ∃ l, s.Blocked p l ∧ m ≤ rank l := by
    intro m
    induction m with
    | zero =>
      obtain ⟨p, hpS⟩ := hS
      obtain ⟨l, hb, -⟩ := hall p hpS
      exact ⟨p, hpS, l, hb, Nat.zero_le _⟩
    | succ m ih =>
      obtain ⟨p, hpS, l, hb, hle⟩ := ih
      obtain ⟨l', hb', q, hqS, hq⟩ := hall p hpS
      obtain rfl : l' = l := Option.some.inj ((hi.blocked hb').1.symm.trans (hi.blocked hb).1)
      obtain ⟨l₂, hb₂, -⟩ := hall q hqS
      exact ⟨q, hqS, l₂, hb₂, hle.trans_lt ((hi.blocked hb₂).2 l' hq)⟩
  obtain ⟨p, -, l, -, hle⟩ := key n
  exact absurd (hn l) (not_lt.2 hle)

/-- **No process takes a lock that it holds.** -/
theorem Reach.no_self (hp : ∀ p, Ordered rank 0 (prog p)) (hr : Reach prog s) {k : List (Cmd L)}
    {H : List L} (hg : s.proc p = ⟨.down l :: k, H, none⟩) : ¬ s.Holds p l := by
  have hok := (hr.inv hp).proc p
  rw [hg] at hok
  rintro (hl | ⟨hw, -⟩)
  · rw [hg] at hl
    exact notMem_of_rank (hok.running rfl).1 hl
  · rw [hg] at hw
    cases hw

end Sys

end LockOrder
