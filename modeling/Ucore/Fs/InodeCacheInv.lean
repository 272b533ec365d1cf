/-
  The inode cache is consistent.

  * `Listed`: the inode list and the hash table hold the live inodes, one for each inode number;
  * `Refs`: `reclaim_count` counts the reclaims on their way, and one more while there are
    references; no inode is without references unless it is being reclaimed, or could not be
    written back.
-/
import Ucore.Fs.InodeCache
import Mathlib.Data.Finset.Card
import Mathlib.Order.Interval.Finset.Nat

namespace Ucore

open Intrusive HandOff

set_option linter.unusedSectionVars false

variable {P N : Type} [DecidableEq P] [DecidableEq N]

namespace InodeCache

theorem sinHashfn_lt (ino : ℕ) : sinHashfn ino < 2 ^ sfsHlistShift := hash32_lt _ (by decide)

/-! ## Lists -/

structure Listed (L : Links (CacheNode N)) (ino : N → ℕ) (live : Finset N) : Prop where
  list : ∃ ns : List N, Circ L .inodeList (ns.map .inodeLink) ∧ ∀ n, n ∈ ns ↔ n ∈ live
  hash : ∀ i < 2 ^ sfsHlistShift, ∃ ns : List N, Circ L (.hashList i) (ns.map .hashLink) ∧
    ∀ n, n ∈ ns ↔ n ∈ live ∧ sinHashfn (ino n) = i
  inj : ∀ m ∈ live, ∀ n ∈ live, ino m = ino n → m = n
  range : ∀ n ∈ live, ino n < 2 ^ 32

variable {L : Links (CacheNode N)} {ino ino' : N → ℕ} {live : Finset N} {n : N} {k : ℕ}

theorem Listed.congr (h : Listed L ino live) (hi : ∀ n ∈ live, ino' n = ino n) :
    Listed L ino' live := by
  refine ⟨h.list, fun i hlt => ?_, fun m hm n hn => ?_, fun n hn => hi n hn ▸ h.range n hn⟩
  · obtain ⟨ns, c, hns⟩ := h.hash i hlt
    refine ⟨ns, c, fun n => (hns n).trans (and_congr_right fun hn => ?_)⟩
    rw [hi n hn]
  · rw [hi m hm, hi n hn]; exact h.inj m hm n hn

/-- There are no more inodes in memory than inode numbers. -/
theorem Listed.card_le (h : Listed L ino live) : live.card ≤ 2 ^ 32 := by
  have := Finset.card_le_card_of_injOn (t := Finset.range (2 ^ 32)) ino
    (fun n hn => Finset.mem_coe.2 (Finset.mem_range.2 (h.range n hn))) fun m hm n hn he =>
      h.inj m hm n hn he
  simpa using this

theorem Listed.length_lt (h : Listed L ino live) {ns : List N} (hnd : ns.Nodup)
    (hns : ∀ n ∈ ns, n ∈ live) : ns.length < fuel := by
  have h1 := h.card_le
  have h2 : ns.toFinset.card ≤ live.card :=
    Finset.card_le_card fun n hn => hns n (List.mem_toFinset.1 hn)
  rw [List.toFinset_card_of_nodup hnd] at h2
  have : fuel = 2 ^ 32 + 1 := rfl
  omega

theorem mapM_hashedSin (ns : List N) : (ns.map CacheNode.hashLink).mapM hashedSin = some ns := by
  induction ns with
  | nil => rfl
  | cons n ns ih => simp [List.mapM_cons, hashedSin, ih]

/-- The walk over a hash chain finds the inode with this number. -/
theorem Listed.find (h : Listed L ino live) (k : ℕ) :
    ∃ ns : List N, (listNodes L (.hashList (sinHashfn k)) fuel (.hashList (sinHashfn k))).bind
      (·.mapM hashedSin) = some ns ∧
      ∀ n, ns.find? (fun n => ino n = k) = some n ↔ n ∈ live ∧ ino n = k := by
  obtain ⟨ns, c, hns⟩ := h.hash _ (sinHashfn_lt k)
  have hlt := h.length_lt (c.nodup_tail.of_map _) fun n hn => ((hns n).1 hn).1
  refine ⟨ns, ?_, fun n => ⟨fun hf => ?_, fun hn => ?_⟩⟩
  · rw [listNodes_circ c (by simpa using hlt), Option.bind_some, mapM_hashedSin]
  · have h1 := List.mem_of_find?_eq_some hf
    have h2 := List.find?_some hf
    exact ⟨((hns n).1 h1).1, by simpa using h2⟩
  · have hm : n ∈ ns := (hns n).2 ⟨hn.1, by rw [hn.2]⟩
    cases hf : ns.find? fun n => ino n = k with
    | none => simpa [hn.2] using List.find?_eq_none.1 hf n hm
    | some m =>
      have h1 := List.mem_of_find?_eq_some hf
      have h2 := List.find?_some hf
      rw [h.inj m ((hns m).1 h1).1 n hn.1 (by rw [hn.2]; simpa using h2)]

/-- `sfs_set_links` -/
theorem Listed.add (h : Listed L ino live) (hn : n ∉ live) (hk : ∀ m ∈ live, ino m ≠ ino n)
    (hr : ino n < 2 ^ 32) :
    Listed (listAdd (listAdd L .inodeList (.inodeLink n)) (sfsHashList (ino n)) (.hashLink n)) ino
      (insert n live) := by
  unfold sfsHashList
  obtain ⟨ns, c, hns⟩ := h.list
  obtain ⟨hs, ch, hhs⟩ := h.hash _ (sinHashfn_lt (ino n))
  have hn₁ : n ∉ ns := fun hm => hn ((hns n).1 hm)
  have hn₂ : n ∉ hs := fun hm => hn ((hhs n).1 hm).1
  have c₁ := circ_listAdd_front (e := .inodeLink n) c (by simpa using hn₁)
  have ch₁ := circ_listAdd_other (e := .inodeLink n) c ch (by simp)
  refine ⟨⟨n :: ns, ?_, fun m => by simp [hns]⟩, fun i hi => ?_, fun m hm m' hm' he => ?_,
    fun m hm => ?_⟩
  · exact circ_listAdd_other ch₁ c₁ (by simp)
  · by_cases hi' : sinHashfn (ino n) = i
    · subst hi'
      refine ⟨n :: hs, circ_listAdd_front ch₁ (by simpa using hn₂), fun m => ?_⟩
      simp only [List.mem_cons, hhs, Finset.mem_insert]
      constructor
      · rintro (rfl | hm)
        exacts [⟨Or.inl rfl, rfl⟩, ⟨Or.inr hm.1, hm.2⟩]
      · rintro ⟨rfl | hm, he⟩
        exacts [Or.inl rfl, Or.inr ⟨hm, he⟩]
    · obtain ⟨is, ci, his⟩ := h.hash i hi
      have ci₁ := circ_listAdd_other (e := .inodeLink n) c ci (by simp)
      refine ⟨is, circ_listAdd_other ch₁ ci₁ ?_, fun m => ?_⟩
      · intro x hx
        simp only [List.mem_cons, List.mem_map] at hx
        rcases hx with rfl | ⟨m, hm, rfl⟩
        · simp [Ne.symm hi']
        · have hm' := (his m).1 hm
          have hne : m ∉ hs := fun hms => hi' (((hhs m).1 hms).2 ▸ hm'.2)
          refine ⟨by simpa using hne, ?_⟩
          rintro ⟨⟩; exact hn hm'.1
      · rw [his, Finset.mem_insert]
        constructor
        · rintro ⟨hm, he⟩; exact ⟨Or.inr hm, he⟩
        · rintro ⟨rfl | hm, he⟩
          exacts [absurd he hi', ⟨hm, he⟩]
  · rcases Finset.mem_insert.1 hm with rfl | h₁ <;> rcases Finset.mem_insert.1 hm' with rfl | h₂
    exacts [rfl, absurd he.symm (hk m' h₂), absurd he (hk m h₁), h.inj m h₁ m' h₂ he]
  · rcases Finset.mem_insert.1 hm with rfl | hm
    exacts [hr, h.range m hm]

/-- The inode list and a hash chain have no node in common. -/
theorem hash_apart {i : ℕ} (ns ms : List N) :
    ∀ x ∈ CacheNode.hashList i :: ns.map .hashLink,
      x ∉ CacheNode.inodeList :: ms.map .inodeLink := by
  intro x hx hx'
  simp only [List.mem_cons, List.mem_map] at hx hx'
  rcases hx with rfl | ⟨m, -, rfl⟩ <;> simp at hx'

/-- `sfs_remove_links` -/
theorem Listed.del (h : Listed L ino live) (hn : n ∈ live) :
    Listed (listDel (listDel L (.inodeLink n)) (.hashLink n)) ino (live.erase n) := by
  obtain ⟨ns, c, hns⟩ := h.list
  obtain ⟨hs, ch, hhs⟩ := h.hash _ (sinHashfn_lt (ino n))
  have hnd := c.nodup_tail.of_map _
  have hndh := ch.nodup_tail.of_map _
  obtain ⟨as, bs, rfl⟩ := List.append_of_mem ((hns n).2 hn)
  obtain ⟨cs, ds, rfl⟩ := List.append_of_mem ((hhs n).2 ⟨hn, rfl⟩)
  have ch₁ := circ_listDel_other (e := .inodeLink n) c (by simp) ch (hash_apart _ _)
  rw [List.map_append, List.map_cons] at c
  have c₁ := circ_listDel c
  refine ⟨⟨as ++ bs, ?_, fun m => ?_⟩, fun i hi => ?_,
    fun m hm m' hm' => h.inj m (Finset.mem_of_mem_erase hm) m' (Finset.mem_of_mem_erase hm'),
    fun m hm => h.range m (Finset.mem_of_mem_erase hm)⟩
  · rw [← List.map_append] at c₁
    exact circ_listDel_other ch₁ (by simp) c₁ fun x hx hx' => hash_apart _ _ x hx' hx
  · rw [mem_erase_append hnd, hns, Finset.mem_erase, and_comm]
  · by_cases hi' : sinHashfn (ino n) = i
    · subst hi'
      refine ⟨cs ++ ds, ?_, fun m => ?_⟩
      · rw [List.map_append, List.map_cons] at ch₁
        rw [List.map_append]
        exact circ_listDel ch₁
      · rw [mem_erase_append hndh, hhs, Finset.mem_erase]; tauto
    · obtain ⟨is, ci, his⟩ := h.hash i hi
      rw [← List.map_cons, ← List.map_append] at c
      have ci₁ := circ_listDel_other (e := .inodeLink n) c (by simp) ci (hash_apart _ _)
      refine ⟨is, circ_listDel_other ch₁ (by simp) ci₁ ?_, fun m => ?_⟩
      · intro x hx
        simp only [List.mem_cons, List.mem_map] at hx
        rcases hx with rfl | ⟨m, hm, rfl⟩
        · simp [Ne.symm hi']
        · have hm' := (his m).1 hm
          have hne : m ∉ cs ++ n :: ds := fun hms => hi' (((hhs m).1 hms).2 ▸ hm'.2)
          simpa using hne
      · rw [his, Finset.mem_erase]
        constructor
        · rintro ⟨hm, he⟩
          exact ⟨⟨by rintro rfl; exact hi' he, hm⟩, he⟩
        · rintro ⟨⟨-, hm⟩, he⟩; exact ⟨hm, he⟩

/-! ## Processes -/

end InodeCache

namespace CachePc

/-- Where the process is with respect to `fs_sem`. -/
def phase : CachePc N → Phase
  | out | loaded _ _ => .outside
  | loadAsleep _ | reclaimAsleep _ => .waiting
  | loadLocked _ | loadReading _ | reclaimLocked _ | truncating _ | fsyncing _ => .inside

/-- The inode that `sfs_load_inode` looks for. -/
def loads : CachePc N → Option ℕ
  | loadAsleep ino | loadLocked ino | loadReading ino => some ino
  | _ => none

/-- In `sfs_reclaim`, and still to be counted by `reclaim_count`. -/
def reclaiming : CachePc N → Option N
  | reclaimAsleep node | reclaimLocked node => some node
  | _ => none

/-- In `sfs_reclaim`, about to free the inode. -/
def flushing : CachePc N → Option N
  | truncating node | fsyncing node => some node
  | _ => none

theorem inside_of_flushing {n : N} {pc : CachePc N} (h : pc.flushing = some n) :
    pc.phase = .inside := by
  cases pc <;> simp [flushing, phase] at h ⊢

theorem of_idle {pc : CachePc N} (h : InodeCache.Idle pc) :
    pc.phase = .outside ∧ pc.loads = none ∧ pc.reclaiming = none ∧ pc.flushing = none := by
  cases pc <;> simp [InodeCache.Idle, phase, loads, reclaiming, flushing] at h ⊢

end CachePc

namespace InodeCache

variable {live : Finset N} {ino ino' : N → ℕ} {n : N} {pc pc' : P → CachePc N} {inode : N → Inode}
    {stuck stuck' : N → Bool} {p q : P}
  {y : CachePc N} {g : Inode}

/-- What the loads on their way rely on. -/
structure Loads (pc : P → CachePc N) (ino : N → ℕ) (live : Finset N) : Prop where
  range : ∀ p k, (pc p).loads = some k → k < 2 ^ 32
  missing : ∀ p k, pc p = .loadReading k → ∀ n ∈ live, ino n ≠ k

theorem Loads.move (h : Loads pc ino live) (hr : ∀ k, y.loads = some k → k < 2 ^ 32)
    (hm : ∀ k, y = .loadReading k → ∀ n ∈ live, ino n ≠ k) :
    Loads (Function.update pc p y) ino live := by
  refine ⟨fun q k hq => ?_, fun q k hq => ?_⟩
  · by_cases hqp : q = p
    · subst hqp; rw [Function.update_self] at hq; exact hr k hq
    · rw [Function.update_of_ne hqp] at hq; exact h.range q k hq
  · by_cases hqp : q = p
    · subst hqp; rw [Function.update_self] at hq; exact hm k hq
    · rw [Function.update_of_ne hqp] at hq; exact h.missing q k hq

/-- A process that leaves `sfs_load_inode`, or is not in it. -/
theorem Loads.leave (h : Loads pc ino live) (hy : y.loads = none) :
    Loads (Function.update pc p y) ino live :=
  h.move (fun k hk => by rw [hy] at hk; cases hk) fun k hk => by subst hk; cases hy

theorem Loads.congr (h : Loads pc ino live) {live' : Finset N} (hl : ∀ n ∈ live', n ∈ live)
    (hi : ∀ n ∈ live', ino' n = ino n) : Loads pc ino' live' :=
  ⟨h.range, fun p k hp n hn => hi n hn ▸ h.missing p k hp n (hl n hn)⟩

/-- What the counters say about the processes. -/
structure Refs (inode : N → Inode) (pc : P → CachePc N) (live : Finset N) (stuck : N → Bool) :
    Prop where
  opens : ∀ n ∈ live, 0 ≤ (inode n).openCount ∧ (inode n).openCount ≤ (inode n).refCount
  reclaims : ∀ n ∈ live, ∃ F : Finset P, (∀ p, p ∈ F ↔ (pc p).reclaiming = some n) ∧
    (inode n).reclaimCount = F.card + if 0 < (inode n).refCount then 1 else 0
  pcLive : ∀ p n, (pc p).reclaiming = some n ∨ (pc p).flushing = some n → n ∈ live
  flushing : ∀ p n, (pc p).flushing = some n →
    (inode n).refCount = 0 ∧ (inode n).reclaimCount = 0
  released : ∀ n ∈ live, (inode n).refCount = 0 →
    (∃ p, (pc p).reclaiming = some n ∨ (pc p).flushing = some n) ∨ stuck n = true

namespace Refs

theorem congr_pc (h : Refs inode pc live stuck)
    (hr : ∀ q, (pc' q).reclaiming = (pc q).reclaiming)
    (hf : ∀ q, (pc' q).flushing = (pc q).flushing) : Refs inode pc' live stuck := by
  obtain ⟨h1, h2, h3, h4, h5⟩ := h
  refine ⟨h1, ?_, ?_, ?_, ?_⟩ <;> simpa only [hr, hf]

/-- A process that goes on without entering or leaving `sfs_reclaim`. -/
theorem move (h : Refs inode pc live stuck) (hr : y.reclaiming = (pc p).reclaiming)
    (hf : y.flushing = (pc p).flushing) : Refs inode (Function.update pc p y) live stuck := by
  refine h.congr_pc (fun q => ?_) fun q => ?_
  all_goals
    by_cases hq : q = p
    · subst hq; simpa
    · rw [Function.update_of_ne hq]

/-- An update of an inode that keeps the balance of its counters. -/
theorem edit (h : Refs inode pc live stuck)
    (ho : 0 ≤ g.openCount ∧ g.openCount ≤ g.refCount)
    (hr : n ∈ live → g.reclaimCount - (if 0 < g.refCount then 1 else 0) =
      (inode n).reclaimCount - if 0 < (inode n).refCount then 1 else 0)
    (hf : ∀ p, (pc p).flushing = some n → g.refCount = 0 ∧ g.reclaimCount = 0)
    (hz : n ∈ live → g.refCount = 0 → (inode n).refCount = 0 ∧ stuck' n = stuck n)
    (hs : ∀ m, m ≠ n → stuck' m = stuck m) :
    Refs (Function.update inode n g) pc live stuck' := by
  refine ⟨fun m hm => ?_, fun m hm => ?_, h.pcLive, fun p m hp => ?_, fun m hm hmz => ?_⟩
  · by_cases hmn : m = n
    · subst hmn; rwa [Function.update_self]
    · rw [Function.update_of_ne hmn]; exact h.opens m hm
  · obtain ⟨F, hF, hc⟩ := h.reclaims m hm
    refine ⟨F, hF, ?_⟩
    by_cases hmn : m = n
    · subst hmn; have := hr hm; rw [Function.update_self]; omega
    · rwa [Function.update_of_ne hmn]
  · by_cases hmn : m = n
    · subst hmn; rw [Function.update_self]; exact hf p hp
    · rw [Function.update_of_ne hmn]; exact h.flushing p m hp
  · by_cases hmn : m = n
    · subst hmn
      rw [Function.update_self] at hmz
      obtain ⟨h1, h2⟩ := hz hm hmz
      rw [h2]; exact h.released m hm h1
    · rw [Function.update_of_ne hmn] at hmz
      rw [hs m hmn]; exact h.released m hm hmz

/-- The last reference goes, and `p` enters `sfs_reclaim`. -/
theorem drop (h : Refs inode pc live stuck) (hn : n ∈ live)
    (hp : (pc p).reclaiming = none ∧ (pc p).flushing = none)
    (hy : y.reclaiming = some n ∧ y.flushing = none) (h1 : (inode n).refCount = 1)
    (ho : (inode n).openCount < 1) :
    Refs (Function.update inode n { inode n with refCount := 0 }) (Function.update pc p y) live
      stuck := by
  have hne : ∀ m, (∃ q, (pc q).flushing = some m) → m ≠ n := by
    rintro m ⟨q, hq⟩ rfl
    have := (h.flushing q m hq).1
    omega
  refine ⟨fun m hm => ?_, fun m hm => ?_, fun q m hq => ?_, fun q m hq => ?_, fun m hm hmz => ?_⟩
  · by_cases hmn : m = n
    · subst hmn; have := h.opens m hm; rw [Function.update_self]; simp only; omega
    · rw [Function.update_of_ne hmn]; exact h.opens m hm
  · obtain ⟨F, hF, hc⟩ := h.reclaims m hm
    by_cases hmn : m = n
    · subst hmn
      have hpF : p ∉ F := by rw [hF, hp.1]; simp
      refine ⟨insert p F, fun q => ?_, ?_⟩
      · by_cases hqp : q = p
        · subst hqp; simp [hy.1]
        · simp [hqp, hF]
      · rw [Finset.card_insert_of_notMem hpF, Function.update_self]
        simp only [h1] at hc ⊢
        simpa using hc
    · refine ⟨F, fun q => ?_, by rwa [Function.update_of_ne hmn]⟩
      by_cases hqp : q = p
      · subst hqp; simp [hF, hy.1, hp.1, Ne.symm hmn]
      · simp [Function.update_of_ne hqp, hF]
  · by_cases hqp : q = p
    · subst hqp
      rw [Function.update_self, hy.1, hy.2] at hq
      simp only [Option.some.injEq, reduceCtorEq, or_false] at hq
      exact hq ▸ hn
    · rw [Function.update_of_ne hqp] at hq; exact h.pcLive q m hq
  · by_cases hqp : q = p
    · subst hqp; rw [Function.update_self, hy.2] at hq; cases hq
    · rw [Function.update_of_ne hqp] at hq
      rw [Function.update_of_ne (hne m ⟨q, hq⟩)]
      exact h.flushing q m hq
  · by_cases hmn : m = n
    · subst hmn; exact Or.inl ⟨p, Or.inl (by rw [Function.update_self]; exact hy.1)⟩
    · rw [Function.update_of_ne hmn] at hmz
      refine (h.released m hm hmz).imp_left ?_
      rintro ⟨q, hq⟩
      have hqp : q ≠ p := by rintro rfl; simp [hp.1, hp.2] at hq
      exact ⟨q, by rwa [Function.update_of_ne hqp]⟩

/-- `--reclaim_count` in `sfs_reclaim`: back off, or go on when nothing else is in the way. -/
theorem check (h : Refs inode pc live stuck) (hp : (pc p).reclaiming = some n)
    (hnf : ∀ q, (pc q).flushing = none) (hr : y.reclaiming = none)
    (hy : if (inode n).reclaimCount - 1 ≠ 0 ∨ (inode n).refCount ≠ 0 then y.flushing = none
      else y.flushing = some n) :
    0 < (inode n).reclaimCount ∧
    Refs (Function.update inode n { inode n with reclaimCount := (inode n).reclaimCount - 1 })
      (Function.update pc p y) live stuck := by
  have hn := h.pcLive p n (Or.inl hp)
  obtain ⟨F, hF, hc⟩ := h.reclaims n hn
  have hpF : p ∈ F := (hF p).2 hp
  have hcard := Finset.card_erase_of_mem hpF
  have hpos := Finset.card_pos.2 ⟨p, hpF⟩
  have hge := h.opens n hn
  have hother : ∀ q, q ∈ F.erase p ↔ (Function.update pc p y q).reclaiming = some n := fun q => by
    by_cases hqp : q = p
    · subst hqp; simp [hr]
    · simp [hqp, hF]
  refine ⟨by split_ifs at hc <;> omega, fun m hm => ?_, fun m hm => ?_, fun q m hq => ?_,
    fun q m hq => ?_, fun m hm hmz => ?_⟩
  · by_cases hmn : m = n
    · subst hmn; rwa [Function.update_self]
    · rw [Function.update_of_ne hmn]; exact h.opens m hm
  · by_cases hmn : m = n
    · subst hmn
      refine ⟨F.erase p, hother, ?_⟩
      rw [Function.update_self, hcard]
      simp only [hc]
      omega
    · obtain ⟨F, hF, hc⟩ := h.reclaims m hm
      refine ⟨F, fun q => ?_, by rwa [Function.update_of_ne hmn]⟩
      by_cases hqp : q = p
      · subst hqp; simp [hF, hr, hp, Ne.symm hmn]
      · simp [Function.update_of_ne hqp, hF]
  · by_cases hqp : q = p
    · subst hqp
      rw [Function.update_self, hr] at hq
      split_ifs at hy
      · simp [hy] at hq
      · simp only [reduceCtorEq, hy, Option.some.injEq, false_or] at hq; exact hq ▸ hn
    · rw [Function.update_of_ne hqp] at hq; exact h.pcLive q m hq
  · by_cases hqp : q = p
    · subst hqp
      rw [Function.update_self] at hq
      split_ifs at hy with hbusy
      · rw [hy] at hq; cases hq
      · push Not at hbusy
        obtain rfl : n = m := Option.some.inj (hy.symm.trans hq)
        simp [hbusy]
    · rw [Function.update_of_ne hqp, hnf] at hq; cases hq
  · by_cases hmn : m = n
    · subst hmn
      rw [Function.update_self] at hmz
      left
      split_ifs at hy with hbusy
      · -- another reclaim is on its way
        simp only at hmz
        simp only [hmz, ne_eq, not_true_eq_false, or_false] at hbusy
        have : 0 < (F.erase p).card := by rw [hcard]; split_ifs at hc <;> omega
        obtain ⟨q, hq⟩ := Finset.card_pos.1 this
        exact ⟨q, Or.inl ((hother q).1 hq)⟩
      · exact ⟨p, Or.inr (by rw [Function.update_self]; exact hy)⟩
    · rw [Function.update_of_ne hmn] at hmz
      refine (h.released m hm hmz).imp_left ?_
      rintro ⟨q, hq⟩
      have hqp : q ≠ p := by
        rintro rfl
        simp only [hp, hnf, reduceCtorEq, Option.some.injEq, or_false] at hq
        exact hmn hq.symm
      exact ⟨q, by rwa [Function.update_of_ne hqp]⟩

/-- The inode could not be written back. -/
theorem fail (h : Refs inode pc live stuck) (hp : (pc p).flushing = some n)
    (hpr : (pc p).reclaiming = none) (hy : y.reclaiming = none ∧ y.flushing = none) :
    Refs inode (Function.update pc p y) live (Function.update stuck n true) := by
  have hkeep : ∀ q m, (Function.update pc p y q).flushing = some m → (pc q).flushing = some m := by
    intro q m hq
    by_cases hqp : q = p
    · subst hqp; rw [Function.update_self, hy.2] at hq; cases hq
    · rwa [Function.update_of_ne hqp] at hq
  have hrec : ∀ q, (Function.update pc p y q).reclaiming = (pc q).reclaiming := fun q => by
    by_cases hqp : q = p
    · subst hqp; rw [Function.update_self, hy.1, hpr]
    · rw [Function.update_of_ne hqp]
  refine ⟨h.opens, fun m hm => ?_, fun q m hq => ?_, fun q m hq => h.flushing q m (hkeep q m hq),
    fun m hm hmz => ?_⟩
  · simpa only [hrec] using h.reclaims m hm
  · rw [hrec] at hq; exact h.pcLive q m (hq.imp_right (hkeep q m))
  · by_cases hmn : m = n
    · subst hmn; exact Or.inr (Function.update_self ..)
    · rw [Function.update_of_ne hmn]
      refine (h.released m hm hmz).imp_left ?_
      rintro ⟨q, hq⟩
      refine ⟨q, ?_⟩
      by_cases hqp : q = p
      · subst hqp
        simp only [hpr, reduceCtorEq, hp, Option.some.injEq, false_or] at hq
        exact absurd hq.symm hmn
      · rwa [Function.update_of_ne hqp]

/-- The inode is freed. -/
theorem free (h : Refs inode pc live stuck) (hp : (pc p).flushing = some n)
    (hpr : (pc p).reclaiming = none) (hnf : ∀ q, q ≠ p → (pc q).flushing = none)
    (hy : y.reclaiming = none ∧ y.flushing = none) :
    Refs inode (Function.update pc p y) (live.erase n) stuck := by
  have hn := h.pcLive p n (Or.inr hp)
  obtain ⟨hz, hrz⟩ := h.flushing p n hp
  obtain ⟨F, hF, hc⟩ := h.reclaims n hn
  -- no reclaim of the inode is on its way
  have hnr : ∀ q, (pc q).reclaiming ≠ some n := fun q hq => by
    have := Finset.card_pos.2 ⟨q, (hF q).2 hq⟩
    split_ifs at hc <;> omega
  have hrec : ∀ q, (Function.update pc p y q).reclaiming = (pc q).reclaiming := fun q => by
    by_cases hqp : q = p
    · subst hqp; rw [Function.update_self, hy.1, hpr]
    · rw [Function.update_of_ne hqp]
  have hfl : ∀ q, (Function.update pc p y q).flushing = none := fun q => by
    by_cases hqp : q = p
    · subst hqp; rw [Function.update_self, hy.2]
    · rw [Function.update_of_ne hqp]; exact hnf q hqp
  refine ⟨fun m hm => h.opens m (Finset.mem_of_mem_erase hm), fun m hm => ?_, fun q m hq => ?_,
    fun q m hq => absurd ((hfl q).symm.trans hq) (by simp), fun m hm hmz => ?_⟩
  · simpa only [hrec] using h.reclaims m (Finset.mem_of_mem_erase hm)
  · rw [hfl, hrec] at hq
    simp only [reduceCtorEq, or_false] at hq
    exact Finset.mem_erase.2 ⟨by rintro rfl; exact hnr q hq, h.pcLive q m (Or.inl hq)⟩
  · refine (h.released m (Finset.mem_of_mem_erase hm) hmz).imp_left ?_
    rintro ⟨q, hq⟩
    refine ⟨q, ?_⟩
    by_cases hqp : q = p
    · subst hqp
      simp only [hpr, reduceCtorEq, hp, Option.some.injEq, false_or] at hq
      exact absurd hq.symm (Finset.ne_of_mem_erase hm)
    · rwa [Function.update_of_ne hqp]

/-- A new inode, with one reference. -/
theorem create (h : Refs inode pc live stuck) (hn : n ∉ live)
    (hg : g.openCount = 0 ∧ g.refCount = 1 ∧ g.reclaimCount = 1)
    (hs : ∀ m, m ≠ n → stuck' m = stuck m) :
    Refs (Function.update inode n g) pc (insert n live) stuck' := by
  obtain ⟨g1, g2, g3⟩ := hg
  have hne : ∀ m ∈ live, m ≠ n := by rintro m hm rfl; exact hn hm
  refine ⟨fun m hm => ?_, fun m hm => ?_, fun q m hq => Finset.mem_insert_of_mem (h.pcLive q m hq),
    fun q m hq => ?_, fun m hm hmz => ?_⟩
  · rcases Finset.mem_insert.1 hm with rfl | hm
    · rw [Function.update_self]; omega
    · rw [Function.update_of_ne (hne m hm)]; exact h.opens m hm
  · rcases Finset.mem_insert.1 hm with rfl | hm
    · refine ⟨∅, fun q => ?_, by rw [Function.update_self, g3, g2]; simp⟩
      simp only [Finset.notMem_empty, false_iff]
      exact fun hq => hn (h.pcLive q m (Or.inl hq))
    · rw [Function.update_of_ne (hne m hm)]; exact h.reclaims m hm
  · rw [Function.update_of_ne (hne m (h.pcLive q m (Or.inr hq)))]; exact h.flushing q m hq
  · rcases Finset.mem_insert.1 hm with rfl | hm
    · rw [Function.update_self, g2] at hmz; cases hmz
    · rw [Function.update_of_ne (hne m hm)] at hmz
      rw [hs m (hne m hm)]; exact h.released m hm hmz

end Refs

end InodeCache

end Ucore
