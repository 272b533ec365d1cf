/-
  Runs of the SLOB allocator.

  `SlobSys` is the allocator together with what its callers know: the blocks in use and the sizes
  they were allocated with.  The callers write into their blocks what they like.

  * `SlobSys.Inv.step`: every step terminates, and keeps the invariant;
  * `slob_heap`: what holds in every state that is reached.
-/
import Ucore.Lib.Machine
import Ucore.Mm.SlobAlloc

namespace Ucore

open Slob Spans

structure SlobSys where
  slob : Slob
  arena : ℕ
  live : ℕ → Option ℕ

inductive SlobOp where
  | alloc (size : ℕ) (answers : List (Option ℕ))
  | free (b size : ℕ)
  | write (w v : ℕ)

namespace SlobSys

variable {s s' : SlobSys} {a b n w size : ℕ} {op : SlobOp} {F : Finset ℕ}

/-- A step with fuel for its loops. -/
def step (s : SlobSys) : SlobOp × ℕ → Option SlobSys
  | (.alloc size answers, fuel) => (s.slob.slobAlloc fuel size answers).map fun (b, k) =>
    { s with
      slob := k
      live := if b = 0 then s.live else Function.update s.live b (some size) }
  | (.free b size, fuel) => (s.slob.slobFree fuel b size).map fun k =>
    { s with slob := k, live := Function.update s.live b none }
  | (.write w v, _) => some { s with slob := s.slob.setWord w v }

/-- The word at `w` belongs to the block in use at `b`. -/
def Inside (s : SlobSys) (b w : ℕ) : Prop :=
  ∃ size, s.live b = some size ∧ b ≤ w ∧ w < ptrAdd b (slobUnits size)

/-- Blocks are freed with their size, or with 0 if their header is as `slob_alloc` has left it; the
    page allocator returns a fresh page (no call gets a second one). -/
def Legal (s : SlobSys) : SlobOp → Prop
  | .alloc size answers => slobUnit < size ∧ size + slobUnit < pgSize ∧
      ∀ page rest, answers = some page :: rest → Blocks.Fresh s.slob s.arena page
  | .free b size => ∃ n, s.live b = some n ∧
      if size = 0 then s.slob.units b = slobUnits n else slobUnits size = slobUnits n
  | .write w _ => ∃ b, s.Inside b w

structure Init (s : SlobSys) : Prop where
  slobfree : s.slob.slobfree = s.arena
  next : s.slob.next s.arena = s.arena
  units : s.slob.units s.arena = 1
  pages : s.slob.pages = ∅
  live : ∀ b, s.live b = none

/-- The lengths of the blocks in use. -/
def len (s : SlobSys) (b : ℕ) : ℕ := ((s.live b).map slobUnits).getD 0

def Inv (s : SlobSys) : Prop :=
  (∃ F, Blocks s.slob s.arena F s.len ∧ Coalesced s.slob F ∅) ∧
    ∀ b n, s.live b = some n → slobUnit < n

theorem len_some (h : s.live b = some n) : s.len b = slobUnits n := by
  rw [len, h]
  rfl

theorem len_update {k : Slob} {o : Option ℕ} :
    ({ s with slob := k, live := Function.update s.live b o } : SlobSys).len =
      Function.update s.len b ((o.map slobUnits).getD 0) := by
  funext x
  change ((Function.update s.live b o x).map slobUnits).getD 0 = _
  rw [Function.update_apply, Function.update_apply]
  split
  · rfl
  · rfl

theorem Inv.len_pos (h : s.Inv) (hb : s.live b = some n) : 0 < s.len b := by
  have := h.2 b n hb
  rw [len_some hb]
  unfold slobUnits slobUnit at *
  omega

theorem Init.inv (h : s.Init) : s.Inv := by
  have hlen : s.len = fun _ => 0 := funext fun b => by
    rw [len, h.live]
    rfl
  refine ⟨⟨{s.arena}, ?_⟩, fun b n hb => ?_⟩
  · rw [hlen]
    exact Blocks.initial h.slobfree h.next h.units h.pages
  · rw [h.live] at hb
    cases hb

theorem Inv.write {v : ℕ} (h : s.Inv) (hw : s.Inside b w) :
    Inv { s with slob := s.slob.setWord w v } := by
  obtain ⟨n, hn, h1, h2⟩ := hw
  have hlen := h.len_pos hn
  obtain ⟨⟨F, hb, hco⟩, hsize⟩ := h
  exact ⟨⟨F, hb.write hco hlen h1 (len_some hn ▸ h2)⟩, hsize⟩

/-- **Every step** terminates, and keeps the invariant; `slob_alloc` and `slob_free` write into no
    block that stays in use. -/
theorem Inv.step (h : s.Inv) (hl : s.Legal op) :
    ∃ n s', (∀ m ≥ n, s.step (op, m) = some s') ∧ s'.Inv ∧ s'.arena = s.arena ∧
      ((∀ w v, op ≠ .write w v) → ∀ b size w, s.live b = some size → s'.live b = some size →
        s.Inside b w → s'.slob.mem w = s.slob.mem w) := by
  obtain ⟨⟨F, hb, hco⟩, hsize⟩ := h
  have h : s.Inv := ⟨⟨F, hb, hco⟩, hsize⟩
  cases op with
  | alloc size answers =>
    obtain ⟨h1, h2, hfresh⟩ := hl
    obtain ⟨n, b, k', hrun, ⟨rfl, rfl, -⟩ | ⟨hb0, hal⟩⟩ := hb.slobAlloc_spec hco h1 h2 hfresh
    · refine ⟨n, s, fun m hm => ?_, h, rfl, fun _ _ _ _ _ _ _ => rfl⟩
      rw [step, hrun m hm]
      rfl
    · obtain ⟨F', hb', hco'⟩ := hal.blocks
      refine
        ⟨n, { s with slob := k', live := Function.update s.live b (some size) }, fun m hm => ?_,
        ⟨⟨F', ?_, hco'⟩, fun c n hc => ?_⟩, rfl, fun _ c n w hc _ hw => ?_⟩
      · rw [step, hrun m hm]
        simp only [Option.map_some, if_neg hb0]
      · rw [len_update]
        exact hb'
      · change Function.update s.live b (some size) c = _ at hc
        rw [Function.update_apply] at hc
        split at hc
        · cases hc
          exact h1
        · exact hsize c n hc
      · obtain ⟨n', hn', h3, h4⟩ := hw
        have hpos := h.len_pos hc
        exact hal.kept c hpos (hb.live_ne_zero hpos) w h3 (len_some hn' ▸ h4)
  | free b size =>
    obtain ⟨n, hn, hlen⟩ := hl
    obtain ⟨m, k', F', hrun, hb', hco', -, -, hkept⟩ :=
      hb.slobFree_spec hco (h.len_pos hn) size ((len_some hn).symm ▸ hlen)
    refine ⟨m, { s with slob := k', live := Function.update s.live b none }, fun i hi => ?_,
      ⟨⟨F', ?_, hco'⟩, fun c n hc => ?_⟩, rfl, fun _ c n w hc hc' hw => ?_⟩
    · rw [step, hrun i hi]
      rfl
    · rw [len_update]
      exact hb'
    · change Function.update s.live b none c = _ at hc
      rw [Function.update_apply] at hc
      split at hc
      · cases hc
      · exact hsize c n hc
    · obtain ⟨n', hn', h3, h4⟩ := hw
      refine hkept c (h.len_pos hc) (fun e => ?_) w h3 (len_some hn' ▸ h4)
      change Function.update s.live b none c = _ at hc'
      rw [e, Function.update_self] at hc'
      cases hc'
  | write w v =>
    obtain ⟨b, hw⟩ := hl
    exact ⟨0, _, fun m _ => rfl, h.write hw, rfl, fun hne => absurd rfl (hne w v)⟩

/-! ## The main result -/

/-- The free list that starts at `slobfree`. -/
def Listed (s : SlobSys) (a : ℕ) : Prop := ∃ n, s.slob.next^[n] s.slob.slobfree = a

/-- A block of `n` units, free or in use. -/
def Block (s : SlobSys) (a n : ℕ) : Prop :=
  (s.Listed a ∧ n = s.slob.units a) ∨ ∃ size, s.live a = some size ∧ n = slobUnits size

/-- The heap is as it should be. -/
structure Sound (s : SlobSys) : Prop where
  circular : ∃ n > 0, s.slob.next^[n] s.slob.slobfree = s.slob.slobfree
  increasing : ∀ a, s.Listed a → a < s.slob.next a →
    ∀ b, s.Listed b → b ≤ a ∨ s.slob.next a ≤ b
  oneWrap : ∃! a, s.Listed a ∧ s.slob.next a ≤ a
  free : ∀ a, s.Listed a → s.live a = none
  apart : ∀ a n b m, s.Block a n → s.Block b m → a ≠ b → ptrAdd a n ≤ b ∨ ptrAdd b m ≤ a
  coalesced : ∀ a b, s.Listed a → s.Listed b → ptrAdd a (s.slob.units a) ≠ b
  units : ∀ q ∈ s.slob.pages, ∀ i < pgSize / slobUnit,
    ∃! a, ∃ n, s.Block a n ∧ a ≤ ptrAdd q i ∧ ptrAdd q (i + 1) ≤ ptrAdd a n
  room : ∀ a size, s.live a = some size → size ≤ slobUnit * slobUnits size ∧
    ∀ p, a ≤ p → p < ptrAdd a (slobUnits size) → ∃ q ∈ s.slob.pages, q ≤ p ∧ p < q + pgSize

theorem Inv.sound (h : s.Inv) : s.Sound := by
  obtain ⟨⟨F, hb, hco⟩, hsize⟩ := h
  have h : s.Inv := ⟨⟨F, hb, hco⟩, hsize⟩
  have hlist : ∀ a, s.Listed a ↔ a ∈ F := fun a => by
    constructor
    · rintro ⟨n, rfl⟩
      exact hb.ring.iterate_mem hb.free n
    · exact fun ha => hb.ring.reach hb.free ha
  have hblock : ∀ {a n}, s.Block a n ↔ 0 < s.slob.span F s.len a ∧
      s.slob.span F s.len a = slobUnit * n := fun {a n} => by
    constructor
    · rintro (⟨ha, rfl⟩ | ⟨size, ha, rfl⟩)
      · have ha := (hlist a).1 ha
        exact ⟨hb.span_pos ha, Blocks.span_free ha⟩
      · have hpos := h.len_pos ha
        exact ⟨hb.span_pos_live hpos, (Blocks.span_live (hb.live_notMem hpos)).trans
          (congrArg _ (len_some ha))⟩
    · rintro ⟨hpos, hn⟩
      by_cases ha : a ∈ F
      · rw [Blocks.span_free ha] at hn
        exact .inl ⟨(hlist a).2 ha, (Nat.eq_of_mul_eq_mul_left (by decide) hn).symm⟩
      · rw [Blocks.span_live ha] at hn hpos
        cases hl : s.live a with
        | none =>
          rw [len, hl] at hpos
          exact absurd hpos (lt_irrefl _)
        | some size =>
          rw [len_some hl] at hn
          exact .inr ⟨size, hl, (Nat.eq_of_mul_eq_mul_left (by decide) hn).symm⟩
  have hne : F.Nonempty := ⟨_, hb.base⟩
  refine ⟨?_, fun a ha hlt b hb' => ?_, ⟨F.max' hne, ⟨?_, ?_⟩, ?_⟩, fun a ha => ?_,
    fun a n b m ha hb' hab => ?_, fun a b ha hb' e => ?_, fun q hq i hi => ?_, fun a size ha => ?_⟩
  · obtain ⟨n, hn, -⟩ := hb.ring.path hb.free hb.free
    exact ⟨n + 1, Nat.succ_pos n, hn⟩
  · exact hb.ring.gap a ((hlist a).1 ha) hlt b ((hlist b).1 hb')
  · exact (hlist _).2 (F.max'_mem hne)
  · exact F.le_max' _ (hb.ring.mem _ (F.max'_mem hne))
  · rintro a ⟨ha, hle⟩
    have ha := (hlist a).1 ha
    exact le_antisymm (F.le_max' a ha) (hb.ring.wrap a ha hle _ (F.max'_mem hne)).2
  · have hlen := hb.live a ((hlist a).1 ha)
    cases hl : s.live a with
    | none => rfl
    | some n => exact absurd hlen (h.len_pos hl).ne'
  · obtain ⟨ha, han⟩ := hblock.1 ha
    obtain ⟨hb', hbm⟩ := hblock.1 hb'
    have := hb.apart a b ha hb' hab
    rwa [han, hbm] at this
  · exact hb.not_touch hco ((hlist a).1 ha) ((hlist b).1 hb') e.symm
  · obtain ⟨⟨c, rfl⟩, habove⟩ := hb.above q hq
    have hp : slobUnit * c ≤ ptrAdd (slobUnit * c) i ∧
        ptrAdd (slobUnit * c) i < slobUnit * c + pgSize := by
      unfold ptrAdd slobUnit pgSize at *
      omega
    obtain ⟨a, h1, h2⟩ := (hb.cover (ptrAdd (slobUnit * c) i)).2 (.inl ⟨_, hq, hp.1, hp.2⟩)
    have hpos : 0 < s.slob.span F s.len a := Has.pos ⟨h1, h2⟩
    have hne : a ≠ s.arena := fun e => by
      rw [e, Blocks.span_free hb.base, hb.unit] at h2
      omega
    obtain ⟨d, rfl⟩ := hb.aligned a hpos hne
    obtain ⟨n, hn⟩ : ∃ n, s.slob.span F s.len (slobUnit * d) = slobUnit * n := ⟨_, rfl⟩
    refine ⟨slobUnit * d, ⟨n, hblock.2 ⟨hpos, hn⟩, h1, ?_⟩, ?_⟩
    · rw [hn] at h2
      unfold ptrAdd slobUnit at *
      omega
    · rintro x ⟨m, hx, h3, h4⟩
      obtain ⟨-, hm⟩ := hblock.1 hx
      refine hb.apart.unique (p := ptrAdd (slobUnit * c) i) ⟨h3, ?_⟩ ⟨h1, h2⟩
      rw [hm]
      unfold ptrAdd slobUnit at *
      omega
  · refine ⟨?_, fun p h1 h2 => ?_⟩
    · unfold slobUnits slobUnit
      omega
    · exact hb.inPages (h.len_pos ha) h1 (len_some ha ▸ h2)

def machine : Machine SlobSys (SlobOp × ℕ) where
  Init := Init
  Legal s i := s.Legal i.1
  step := step

theorem step_more {n m : ℕ} (h : s.step (op, n) = some s') (hle : n ≤ m) :
    s.step (op, m) = some s' := by
  cases op with
  | alloc size answers =>
    obtain ⟨r, hr, rfl⟩ := Option.map_eq_some_iff.1 h
    exact Option.map_eq_some_iff.2 ⟨r, slobAlloc_more hr hle, rfl⟩
  | free b size =>
    obtain ⟨k, hk, rfl⟩ := Option.map_eq_some_iff.1 h
    exact Option.map_eq_some_iff.2 ⟨k, slobFree_more hk hle, rfl⟩
  | write w v => exact h

theorem reach_inv (h : machine.Reach s) : s.Inv :=
  h.preserved (fun _ h0 => h0.inv) fun s i s' hi hl hs => by
    obtain ⟨n, s₁, hrun, hi₁, -⟩ := hi.step hl
    have h₁ := hrun _ (le_max_left n i.2)
    rw [step_more hs (le_max_right n i.2)] at h₁
    cases h₁
    exact hi₁

/-- **The SLOB heap.**  In every state that is reached, the free list is circular, in increasing
    order except for one wrap and without blocks that touch, and each unit of each page belongs to
    exactly one block; and every further call terminates and leaves the contents of the blocks in
    use alone. -/
theorem slob_heap (h : machine.Reach s) : s.Sound ∧ ∀ op, s.Legal op →
    ∃ n s', (∀ m ≥ n, s.step (op, m) = some s') ∧ s'.Sound ∧
      ((∀ w v, op ≠ .write w v) → ∀ b size w, s.live b = some size → s'.live b = some size →
        s.Inside b w → s'.slob.mem w = s.slob.mem w) := by
  have hi := reach_inv h
  refine ⟨hi.sound, fun op hl => ?_⟩
  obtain ⟨n, s', hrun, hi', -, hkept⟩ := hi.step hl
  exact ⟨n, s', hrun, hi'.sound, hkept⟩

/-! ## A run -/

/-- The arena is at 64. -/
def boot : SlobSys where
  slob :=
    { mem := fun w => if w = 64 then 1 else if w = 72 then 64 else 0
      slobfree := 64
      pages := ∅ }
  arena := 64
  live _ := none

theorem init_boot : boot.Init := ⟨rfl, rfl, rfl, rfl, fun _ => rfl⟩

/-- A page is needed for the first block. -/
def first : SlobSys := (boot.step (.alloc 40 [some 8192], 3)).getD boot

theorem reach_first : machine.Reach first := by
  refine .step (i := (.alloc 40 [some 8192], 3)) (.init init_boot) ⟨by decide, by decide, ?_⟩ rfl
  rintro page rest h
  cases h
  exact ⟨by decide, by decide, fun q hq => absurd hq (Finset.notMem_empty q)⟩

/-- The block is at 8192. -/
theorem slob_heap_first : first.live 8192 = some 40 ∧ first.Sound :=
  ⟨rfl, (slob_heap reach_first).1⟩

end SlobSys

end Ucore
