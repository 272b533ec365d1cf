/-
  The sizes that `kmalloc` can serve.

  * `Repr.granted`: what `kmalloc` returns is a block of the size that was asked for, if its grant
    is large enough;
  * `kmalloc_honours`: that is so exactly for the sizes of `Fits`; `kfree` always gives back what
    was taken.
-/
import Ucore.Mm.KmallocRun

namespace Ucore

open Slob

namespace KmallocSys

variable {s s' : KmallocSys} {F : Finset ℕ} {L : ℕ → ℕ} {xs : List ℕ} {p size : ℕ}
  {answers : List (Option ℕ)} {pages : Option ℕ}

/-- The bytes that the page allocator has handed out: for the SLOB list, and for this request. -/
def Supplied (k' : Kmalloc) (size : ℕ) (pages : Option ℕ) (w : ℕ) : Prop :=
  (∃ q ∈ k'.slob.pages, q ≤ w ∧ w < q + pgSize) ∨
    ∃ q, pages = some q ∧ q ≤ w ∧ w < q + pgSize * 2 ^ findOrder (toInt32 size)

/-- There is a block of `size` bytes at `p`, which was not there before. -/
structure Granted (s : KmallocSys) (size : ℕ) (pages : Option ℕ) (p : ℕ) (k' : Kmalloc) : Prop where
  new : s.live p = none
  own : ∀ w, p ≤ w → w < p + size → Supplied k' size pages w ∧ ¬k'.slob.Free w
  apart : ∀ q g, s.live q = some g → p + size ≤ q ∨ q + g.bytes ≤ p

/-- `kmalloc` returns `NULL` or a block of `size` bytes. -/
def Honours (s : KmallocSys) (size : ℕ) (answers : List (Option ℕ)) (pages : Option ℕ) : Prop :=
  ∃ n p k', (∀ m ≥ n, s.heap.kmalloc m size answers pages = some (p, k')) ∧
    (p = 0 ∨ Granted s size pages p k')

/-- `kfree` gives back what was taken, to the page allocator and to the SLOB list. -/
def Releases (s : KmallocSys) (p : ℕ) (g : Grant) : Prop :=
  ∃ n k', (∀ m ≥ n, s.heap.kfree m p = some (k', Repr.given p g)) ∧
    k'.slob.pages = s.heap.slob.pages ∧
    ∀ w, k'.slob.Free w ↔ s.heap.slob.Free w ∨ Repr.Taken p g w

/-- The sizes that `kmalloc` can serve. -/
def Fits (size : ℕ) : Prop :=
  size < 4064 ∨ (4080 ≤ size ∧ size < 2 ^ 31 ∧
    ∀ order ≥ 1, ¬(4096 * 2 ^ order < size ∧ size < 4097 * 2 ^ order))

/-- A block that is there after the call is as large as its grant says. -/
theorem Repr.granted {g : Grant} {k' : Kmalloc} (hnone : s.live p = none)
    (r : Repr { s with heap := k', live := Function.update s.live p (some g) } F L xs)
    (hle : size ≤ g.bytes)
    (hg : ∀ bb order, g = .pages bb order → pages = some p ∧ order = findOrder (toInt32 size)) :
    Granted s size pages p k' := by
  have hself : Function.update s.live p (some g) p = some g := Function.update_self ..
  refine ⟨hnone, fun w h1 h2 => ?_, fun q g' hq => ?_⟩
  · rw [r.blocks.free_iff]
    cases g with
    | small n =>
      have hpos := r.header p n hself
      obtain ⟨b, rfl⟩ : ∃ b, p = b + slobUnit := ⟨p - slobUnit, (Nat.sub_add_cancel hpos).symm⟩
      have h3 := r.used_pos (.inr ⟨n, hself⟩)
      have hL := (r.small b n hself).2.1
      rw [Grant.bytes, ← hL] at hle
      have hend : b ≤ w ∧ w < ptrAdd b (L b) := by
        unfold ptrAdd slobUnit at *
        omega
      exact ⟨.inl (r.blocks.inPages (by omega) hend.1 hend.2), fun hf => hf.2 b hend.1 hend.2⟩
    | pages bb order =>
      obtain ⟨hp, rfl⟩ := hg bb order rfl
      obtain ⟨-, -, -, -, habove, hapart⟩ := r.big p bb _ hself
      rw [Grant.bytes] at hle
      refine ⟨.inr ⟨p, hp, h1, by omega⟩, fun hf => ?_⟩
      obtain ⟨q, hq, h3, h4⟩ | ⟨-, hlt⟩ := hf.1
      · have := hapart q hq
        rw [Apart] at this
        omega
      · have : s.arena + slobUnit < p := habove
        omega
  · have hqp : p ≠ q := fun e => by
      rw [← e, hnone] at hq
      cases hq
    have hq' : Function.update s.live p (some g) q = some g' := by
      rw [Function.update_of_ne hqp.symm]
      exact hq
    have := r.disjoint hself hq' hqp
    omega

/-! ## The main result -/

theorem Inv.releases {g : Grant} (h : s.Inv) (hp : s.live p = some g) : Releases s p g := by
  obtain ⟨n, k', hrun, hfreed⟩ := h.kfree hp
  exact ⟨n, k', hrun, hfreed.pages, hfreed.free⟩

theorem Fits.bytes (hf : Fits size) (hge : 4080 ≤ size) :
    size ≤ pgSize * 2 ^ findOrder (toInt32 size) := by
  obtain hlt | ⟨-, hlt, hno⟩ := hf
  · omega
  · exact bigBytes_iff.2 ⟨hlt, hno⟩

theorem Inv.honours (h : s.Inv) (hs : 1 ≤ size) (hf : Fits size)
    (ha : Repr.Answers s size answers pages) : Honours s size answers pages := by
  obtain ⟨F, L, xs, r⟩ := h
  by_cases hlt : size < 4064
  · obtain ⟨n, p, k', hrun, ⟨hp, -⟩ | ⟨hp, hnone, F', L', r'⟩⟩ := r.kmallocSmall hs hlt ha
    · exact ⟨n, p, k', hrun, .inl hp⟩
    · have hle : size ≤ (Grant.small size).bytes := by
        rw [Grant.bytes]
        unfold slobUnits slobUnit
        omega
      exact ⟨n, p, k', hrun, .inr (r'.granted hnone hle fun bb order e => by cases e)⟩
  · have hge : 4080 ≤ size := by
      obtain h | h := hf
      · omega
      · exact h.1
    obtain ⟨n, p, k', hrun, ⟨hp, -⟩ | ⟨hp, hpages, hnone, -, F', L', xs', r'⟩⟩ :=
      r.kmallocBig hge ha
    · exact ⟨n, p, k', hrun, .inl hp⟩
    · refine ⟨n, p, k', hrun, .inr (r'.granted hnone (hf.bytes hge) fun bb order e => ?_)⟩
      cases e
      exact ⟨hpages, rfl⟩

/-- Above some address, all pages are fresh. -/
theorem Inv.exists_fresh (h : s.Inv) :
    ∃ N, ∀ p n, pgSize ∣ p → N ≤ p → s.Fresh p n ∧ ∀ q ∈ s.heap.slob.pages, q + pgSize ≤ p := by
  obtain ⟨F, L, xs, r⟩ := h
  set slobTop := s.heap.slob.pages.sup fun q => q + pgSize
  set bigTop := xs.toFinset.sup fun x => s.heap.slob.mem (x + 8) + pgSize * 2 ^ s.heap.slob.mem x
  have hslob : ∀ q ∈ s.heap.slob.pages, q + pgSize ≤ slobTop := fun q hq =>
    Finset.le_sup (f := fun q => q + pgSize) hq
  have hbig : ∀ q bb order, s.live q = some (.pages bb order) → q + pgSize * 2 ^ order ≤ bigTop :=
    fun q bb order hq => by
      obtain ⟨h1, h2, h3, -⟩ := r.big q bb order hq
      have := Finset.le_sup (f := fun x => s.heap.slob.mem (x + 8) + pgSize * 2 ^ s.heap.slob.mem x)
        (List.mem_toFinset.2 h1)
      simp only [h2, h3] at this
      exact this
  refine ⟨s.arena + slobUnit + 1 + slobTop + bigTop, fun p n hp hN =>
    ⟨⟨hp, by omega, fun q hq => .inr ?_, fun q bb order hq => .inr ?_⟩, fun q hq => ?_⟩⟩
  · have := hslob q hq
    omega
  · have := hbig q bb order hq
    omega
  · have := hslob q hq
    omega

/-- A large block that is too small. -/
theorem Inv.not_honours (h : s.Inv) (hge : 4080 ≤ size)
    (hlt : pgSize * 2 ^ findOrder (toInt32 size) < size) :
    ∃ answers pages, Repr.Answers s size answers pages ∧ ¬Honours s size answers pages := by
  obtain ⟨N, hN⟩ := h.exists_fresh
  obtain ⟨F, L, xs, r⟩ := h
  set order := findOrder (toInt32 size)
  -- the pages lie above everything else
  have hpg : pgSize = 4096 := rfl
  obtain ⟨hpage, -⟩ := hN (4096 * (N + 1)) 1 ⟨N + 1, rfl⟩ (by omega)
  obtain ⟨hp, htop⟩ := hN (4096 * (N + 2)) (2 ^ order) ⟨N + 2, rfl⟩ (by omega)
  have ha : Repr.Answers s size [some (4096 * (N + 1))] (some (4096 * (N + 2))) := by
    refine ⟨fun page rest e => ?_, fun p e => ?_⟩
    · cases e
      exact hpage
    · cases e
      refine ⟨hp, fun page rest e => ?_⟩
      cases e
      exact .inr (by omega)
  refine ⟨_, _, ha, ?_⟩
  rintro ⟨n, p, k', hrun, hres⟩
  obtain ⟨n₁, p₁, k₁, hrun₁, ⟨-, hno | hno, -⟩ | ⟨hp0, hpages, -, hnew, -⟩⟩ := r.kmallocBig hge ha
  · exact hno _ _ rfl
  · cases hno
  · have he := hrun _ (le_max_left n n₁)
    rw [hrun₁ _ (le_max_right n n₁)] at he
    cases he
    cases hpages
    have hown := (hres.resolve_left hp0).own (4096 * (N + 2) + pgSize * 2 ^ order) (by omega)
      (by omega)
    obtain ⟨⟨q, hq, h1, h2⟩ | ⟨q, e, h1, h2⟩, -⟩ := hown
    · obtain hq | ⟨rest, e⟩ := hnew q hq
      · have := htop q hq
        omega
      · cases e
        omega
    · cases e
      exact lt_irrefl _ h2

/-- **`kmalloc` honours a size**, in every state that is reached and whatever the page allocator
    answers, exactly if it is below 4064, or from 4080 on below `2 ^ 31` and not a little above
    `4096 << order`; and `kfree` releases exactly what was taken for the pointer. -/
theorem kmalloc_honours (h : machine.Reach s) (hs : 1 ≤ size) :
    ((∀ answers pages, s.Legal (.kmalloc size answers pages) → Honours s size answers pages) ∧
      ∀ p g, s.live p = some g → Releases s p g) ↔ Fits size := by
  have hi := reach_inv h
  refine ⟨fun hall => ?_, fun hf => ⟨fun answers pages hl => hi.honours hs hf hl.2,
    fun p g hp => hi.releases hp⟩⟩
  by_contra hno
  rw [Fits, not_or] at hno
  by_cases hge : 4080 ≤ size
  · have hlt : pgSize * 2 ^ findOrder (toInt32 size) < size := by
      by_contra hle
      exact hno.2 ⟨hge, bigBytes_iff.1 (not_lt.1 hle)⟩
    obtain ⟨answers, pages, ha, hbad⟩ := hi.not_honours hge hlt
    exact hbad (hall.1 answers pages ⟨hs, ha⟩)
  · have ha : Repr.Answers s size [] none :=
      ⟨fun _ _ e => (by cases e), fun _ e => (by cases e)⟩
    obtain ⟨n, p, k', hrun, -⟩ := hall.1 [] none ⟨hs, ha⟩
    have := hrun n le_rfl
    rw [kmalloc_panics (by omega) (by omega)] at this
    cases this

/-! ## At boot -/

def boot : KmallocSys where
  heap :=
    { slob :=
        { mem := fun w => if w = 64 then 1 else if w = 72 then 64 else 0
          slobfree := 64
          pages := ∅ }
      bigblocks := 0 }
  arena := 64
  live _ := none

theorem init_boot : boot.Init := ⟨rfl, rfl, rfl, rfl, rfl, fun _ => rfl⟩

/-- 8193 bytes get two pages. -/
theorem kmalloc_honours_8193 :
    ¬∀ answers pages, boot.Legal (.kmalloc 8193 answers pages) →
      Honours boot 8193 answers pages := by
  intro hall
  obtain h | ⟨-, -, h⟩ := (kmalloc_honours (.init init_boot) (by decide)).1 ⟨hall, fun p g hp => by
    cases hp⟩
  · omega
  · exact h 1 le_rfl (by decide)

/-- 4064 bytes are too many for the SLOB list. -/
theorem kmalloc_4064_panics : ¬∀ (s : KmallocSys) (size : ℕ) (answers : List (Option ℕ))
    (pages : Option ℕ), machine.Reach s → s.Legal (.kmalloc size answers pages) →
    Honours s size answers pages := by
  intro hall
  obtain ⟨n, p, k', hrun, -⟩ := hall boot 4064 [] none (.init init_boot)
    ⟨by decide, fun _ _ e => (by cases e), fun _ e => (by cases e)⟩
  have := hrun n le_rfl
  rw [kmalloc_panics le_rfl (by decide)] at this
  cases this

end KmallocSys

end Ucore
