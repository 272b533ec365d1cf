/-
  `copy_string` copies exactly the strings that the user may read.

  * `Touches`: which addresses are read, and which are written;
  * `strnlen_spec`, `memcpy_spec`: the two functions on strings;
  * `IsString`: the string that ends within the budget;
  * `copyLoop_spec`: what is left of the string, from one part to the next;
  * `copy_string_exact`: the result.
-/
import Ucore.Mm.UserMem

namespace Ucore.Vmm

open Pmm (UserAccess userBase userTop)

variable {mm mm' : MmStruct} {m m' m'' : Memory} {R R' W W' : ℕ → Prop}
  {a b k n dst src maxn part : ℕ}

/-! ## Memory -/

/-- Reads from `R` and writes to `W`. -/
structure Touches (m m' : Memory) (R W : ℕ → Prop) : Prop where
  reads : ∀ a ∈ m'.reads, a ∈ m.reads ∨ R a
  writes : ∀ a ∈ m'.writes, a ∈ m.writes ∨ W a
  byte : ∀ a, ¬W a → m'.byte a = m.byte a

namespace Touches

theorem refl (hb : m'.byte = m.byte) (hr : m'.reads = m.reads) (hw : m'.writes = m.writes) :
    Touches m m' R W where
  reads _ h := .inl (hr ▸ h)
  writes _ h := .inl (hw ▸ h)
  byte _ _ := by rw [hb]

theorem trans (h : Touches m m' R W) (h' : Touches m' m'' R W) : Touches m m'' R W where
  reads a ha := by
    obtain hm | hr := h'.reads a ha
    · exact h.reads a hm
    · exact .inr hr
  writes a ha := by
    obtain hm | hw := h'.writes a ha
    · exact h.writes a hm
    · exact .inr hw
  byte a ha := (h'.byte a ha).trans (h.byte a ha)

theorem mono (h : Touches m m' R W) (hR : ∀ a, R a → R' a) (hW : ∀ a, W a → W' a) :
    Touches m m' R' W' where
  reads a ha := (h.reads a ha).imp id (hR a)
  writes a ha := (h.writes a ha).imp id (hW a)
  byte a ha := h.byte a fun hw => ha (hW a hw)

end Touches

/-- Addresses from `a` on. -/
def Span (a n b : ℕ) : Prop := a ≤ b ∧ b < a + n

theorem load_run : Memory.load a m = some (.ok (m.byte a), { m with reads := a :: m.reads }) := rfl

theorem load_touches : Touches m { m with reads := a :: m.reads } (fun b => b = a) W where
  reads b hb := by
    rw [List.mem_cons] at hb
    exact hb.symm
  writes _ h := .inl h
  byte _ _ := rfl

/-- The bytes before the first zero. -/
theorem strnlen_spec : ∀ n a m, ∃ k m', strnlen a n m = some (.ok k, m') ∧ m'.mm = m.mm ∧
    m'.byte = m.byte ∧ Touches m m' (Span a n) (fun _ => False) ∧ k ≤ n ∧
    (∀ i < k, m.byte (a + i) ≠ 0) ∧ (k < n → m.byte (a + k) = 0) := by
  intro n
  induction n with
  | zero =>
    intro a m
    exact ⟨0, m, rfl, rfl, rfl, .refl rfl rfl rfl, le_rfl, nofun, nofun⟩
  | succ n ih =>
    intro a m
    rw [strnlen, Code.bind_ok load_run]
    have hload : Touches m { m with reads := a :: m.reads } (Span a (n + 1)) (fun _ => False) :=
      load_touches.mono (fun b hb => by unfold Span; omega) fun _ => id
    by_cases hc : m.byte a = 0
    · refine ⟨0, { m with reads := a :: m.reads }, ?_, rfl, rfl, hload, Nat.zero_le _, nofun,
        fun _ => hc⟩
      rw [if_neg (not_not.2 hc)]
      rfl
    · obtain ⟨k, m', hrun, hmm, hb, ht, hle, hne, hz⟩ := ih (a + 1) { m with reads := a :: m.reads }
      refine ⟨k + 1, m', ?_, hmm, hb, hload.trans (ht.mono (fun b hb => ?_) fun _ => id), by omega,
        fun i hi => ?_, fun hk => ?_⟩
      · rw [if_pos hc, Code.bind_ok hrun]
        rfl
      · unfold Span at hb ⊢
        omega
      · cases i with
        | zero => exact hc
        | succ i =>
          rw [← Nat.add_assoc, Nat.add_right_comm]
          exact hne i (by omega)
      · rw [← Nat.add_assoc, Nat.add_right_comm]
        exact hz (by omega)

/-- A copy between ranges that do not meet. -/
theorem memcpy_spec : ∀ n dst src m, (∀ b, Span src n b → ¬Span dst n b) →
    ∃ m', memcpy dst src n m = some (.ok (), m') ∧ m'.mm = m.mm ∧
      Touches m m' (Span src n) (Span dst n) ∧ ∀ i < n, m'.byte (dst + i) = m.byte (src + i) := by
  intro n
  induction n with
  | zero =>
    intro dst src m _
    exact ⟨m, rfl, rfl, .refl rfl rfl rfl, nofun⟩
  | succ n ih =>
    intro dst src m hd
    let m1 : Memory := { m with
      reads := src :: m.reads
      byte := Function.update m.byte dst (m.byte src)
      writes := dst :: m.writes }
    have h1 : Touches m m1 (Span src (n + 1)) (Span dst (n + 1)) := by
      refine ⟨fun b hb => ?_, fun b hb => ?_, fun b hb => ?_⟩
      · rcases List.mem_cons.1 hb with rfl | hb
        · exact .inr ⟨le_rfl, by omega⟩
        · exact .inl hb
      · rcases List.mem_cons.1 hb with rfl | hb
        · exact .inr ⟨le_rfl, by omega⟩
        · exact .inl hb
      · refine Function.update_of_ne ?_ _ _
        rintro rfl
        exact hb ⟨le_rfl, by omega⟩
    obtain ⟨m', hrun, hmm, ht, hcopy⟩ := ih (dst + 1) (src + 1) m1 fun b hb hb' =>
      hd b (by unfold Span at *; omega) (by unfold Span at *; omega)
    refine ⟨m', ?_, hmm, h1.trans (ht.mono (fun b hb => ?_) fun b hb => ?_), fun i hi => ?_⟩
    · rw [memcpy, Code.bind_ok load_run]
      exact hrun
    · unfold Span at *
      omega
    · unfold Span at *
      omega
    · cases i with
      | zero =>
        rw [Nat.add_zero, ht.byte dst (by unfold Span; omega)]
        exact Function.update_self _ _ _
      | succ i =>
        have hne : src + 1 + i ≠ dst := by
          rintro rfl
          exact hd (src + 1 + i) ⟨by omega, by omega⟩ ⟨le_rfl, by omega⟩
        have := hcopy i (by omega)
        rw [show dst + (i + 1) = dst + 1 + i by omega,
          show src + (i + 1) = src + 1 + i by omega, this]
        exact Function.update_of_ne hne _ _

/-! ## Parts of a page -/

/-- The user may read the byte. -/
def Readable (mm : MmStruct) (a : ℕ) : Prop := userBase ≤ a ∧ a < userTop ∧ Accessible mm false a

/-- The areas consist of pages. -/
def PageAligned (mm : MmStruct) : Prop :=
  ∀ v ∈ mm.mmapList, v.vmStart % pgSize = 0 ∧ v.vmEnd % pgSize = 0

instance (mm : MmStruct) : Decidable (PageAligned mm) :=
  inferInstanceAs (Decidable (∀ v ∈ mm.mmapList, _))

theorem Readable.page (hp : PageAligned mm) (hab : a / pgSize = b / pgSize) (h : Readable mm a) :
    Readable mm b := by
  obtain ⟨h1, h2, v, hv, ⟨h3, h4⟩, hf, -⟩ := h
  obtain ⟨e1, e2⟩ := hp v hv
  unfold pgSize at *
  unfold userBase at h1
  unfold userTop at h2
  refine ⟨?_, ?_, v, hv, ⟨?_, ?_⟩, hf, nofun⟩
  · unfold userBase
    omega
  · unfold userTop
    omega
  · omega
  · omega

/-- The rest of the page of an address. -/
def rest (src : ℕ) : ℕ := pgSize - src % pgSize

theorem rest_pos : 0 < rest src := by
  unfold rest pgSize
  omega

theorem rest_page (h : Span src (rest src) b) : src / pgSize = b / pgSize := by
  unfold Span rest pgSize at *
  omega

theorem rest_next : rest (src + rest src) = pgSize := by
  unfold rest pgSize
  omega

/-- The first part, as it is computed. -/
theorem part_eq (h : src < 2 ^ 64) :
    (roundDown ((src + pgSize) % 2 ^ 64) pgSize + 2 ^ 64 - src) % 2 ^ 64 = rest src := by
  unfold roundDown rest pgSize
  omega

/-- The check of a part is the check of its first byte. -/
theorem part_iff (hp : PageAligned mm) (hn : 0 < n) (hle : n ≤ rest src) :
    ((userBase ≤ src ∧ src + n ≤ userTop) ∧ ∀ b, src ≤ b → b < src + n → Accessible mm false b) ↔
      Readable mm src := by
  have hpage : ∀ b, Span src n b → src / pgSize = b / pgSize := fun b hb =>
    rest_page ⟨hb.1, by have := hb.2; omega⟩
  constructor
  · rintro ⟨⟨h1, h2⟩, hall⟩
    exact ⟨h1, by omega, hall src le_rfl (by omega)⟩
  · intro hr
    have hlast : Readable mm (src + n - 1) := hr.page hp (hpage _ ⟨by omega, by omega⟩)
    have := hlast.2.1
    exact ⟨⟨hr.1, by omega⟩, fun b h1 h2 => (hr.page hp (hpage b ⟨h1, h2⟩)).2.2⟩

theorem userMemCheck_zero : userMemCheck src 0 false (some mm) = some (.ok false, some mm) := by
  have hno : ¬UserAccess src ((src + 0) % 2 ^ 64) := by
    unfold UserAccess
    have := Nat.mod_le (src + 0) (2 ^ 64)
    omega
  unfold userMemCheck
  rw [Code.bind_ok (rfl : (Code.get : M (Option MmStruct)) (some mm) = _)]
  simp only [hno, not_false_eq_true, if_true]
  rfl

/-! ## The loop -/

/-- The string of `k` bytes at `src`, which ends within the budget, and which the user may read. -/
structure IsString (mm : MmStruct) (byte : ℕ → BitVec 8) (src maxn k : ℕ) : Prop where
  lt : k < maxn
  zero : byte (src + k) = 0
  first : ∀ i < k, byte (src + i) ≠ 0
  readable : ∀ i ≤ k, Readable mm (src + i)

theorem IsString.unique {byte : ℕ → BitVec 8} {j : ℕ} (h : IsString mm byte src maxn k)
    (hj : j < maxn) (hz : byte (src + j) = 0) (hf : ∀ i < j, byte (src + i) ≠ 0) : k = j := by
  rcases lt_trichotomy k j with hlt | rfl | hlt
  · exact absurd h.zero (hf k hlt)
  · rfl
  · exact absurd hz (h.first j hlt)

/-- What is left of a string behind a part without a zero. -/
theorem isString_next {byte byte' : ℕ → BitVec 8} (hne : ∀ i < n, byte (src + i) ≠ 0)
    (hr : ∀ b, Span src n b → Readable mm b) (hb : ∀ b, Readable mm b → byte' b = byte b)
    (hn : n ≤ maxn) : IsString mm byte src maxn k ↔
      n ≤ k ∧ IsString mm byte' (src + n) (maxn - n) (k - n) := by
  constructor
  · intro h
    have hk : n ≤ k := not_lt.1 fun hlt => hne k hlt h.zero
    have hread : ∀ i ≤ k - n, Readable mm (src + n + i) := fun i hi => by
      rw [Nat.add_assoc]
      exact h.readable (n + i) (by omega)
    refine ⟨hk, by have := h.lt; omega, ?_, fun i hi => ?_, hread⟩
    · rw [hb _ (hread _ le_rfl), Nat.add_assoc, Nat.add_sub_cancel' hk]
      exact h.zero
    · rw [hb _ (hread _ hi.le), Nat.add_assoc]
      exact h.first _ (by omega)
  · rintro ⟨hk, h⟩
    have hread : ∀ i ≤ k, Readable mm (src + i) := fun i hi => by
      by_cases hin : i < n
      · exact hr _ ⟨by omega, by omega⟩
      · have := h.readable (i - n) (by omega)
        rwa [Nat.add_assoc, Nat.add_sub_cancel' (not_lt.1 hin)] at this
    refine ⟨by have := h.lt; omega, ?_, fun i hi => ?_, hread⟩
    · have := h.zero
      rwa [Nat.add_assoc, Nat.add_sub_cancel' hk, hb _ (hread k le_rfl)] at this
    · by_cases hin : i < n
      · exact hne i hin
      · have := h.first (i - n) (by omega)
        rwa [Nat.add_assoc, Nat.add_sub_cancel' (not_lt.1 hin), hb _ (hread i hi.le)] at this

/-- What `copy_string` is to do with what is left of the string. -/
structure Copies (mm : MmStruct) (m m' : Memory) (dst src maxn : ℕ) (r : Bool) : Prop where
  areas : ∃ mm', m'.mm = some mm' ∧ mm'.Ordered ∧ mm'.mmapList = mm.mmapList
  touches : Touches m m' (Readable mm) (Span dst maxn)
  ret : r = true ↔ ∃ k, IsString mm m.byte src maxn k
  copied : ∀ k, IsString mm m.byte src maxn k → ∀ i ≤ k, m'.byte (dst + i) = m.byte (src + i)

theorem check_run {r : Bool} {o : Option MmStruct} (hm : m.mm = some mm)
    (h : userMemCheck src n false (some mm) = some (.ok r, o)) :
    (Code.on Memory.mm (fun s mm => { s with mm := mm }) (userMemCheck src n false) :
      Code Memory Errno Bool) m = some (.ok r, { m with mm := o }) := by
  unfold Code.on
  rw [hm, h]
  rfl

theorem Readable.congr (h : mm'.mmapList = mm.mmapList) : Readable mm' a ↔ Readable mm a := by
  unfold Readable
  rw [Accessible.congr h]

theorem IsString.congr {byte : ℕ → BitVec 8} (h : mm'.mmapList = mm.mmapList) :
    IsString mm' byte src maxn k ↔ IsString mm byte src maxn k :=
  ⟨fun ⟨h1, h2, h3, h4⟩ => ⟨h1, h2, h3, fun i hi => (Readable.congr h).1 (h4 i hi)⟩,
    fun ⟨h1, h2, h3, h4⟩ => ⟨h1, h2, h3, fun i hi => (Readable.congr h).2 (h4 i hi)⟩⟩

/-- A string that ends within the part. -/
theorem copies_last {mm1 : MmStruct} {m2 : Memory} (hk : IsString mm m.byte src maxn k)
    (hd : userTop ≤ dst) (hm : m2.mm = some mm1) (ho : mm1.Ordered)
    (hl : mm1.mmapList = mm.mmapList) (hb : m2.byte = m.byte)
    (ht : Touches m m2 (Readable mm) (Span dst maxn)) :
    ∃ m', memcpy dst src (k + 1) m2 = some (.ok (), m') ∧ Copies mm m m' dst src maxn true := by
  have hread : ∀ b, Span src (k + 1) b → Readable mm b := fun b hb => by
    have := hk.readable (b - src) (by have := hb.2; omega)
    rwa [Nat.add_sub_cancel' hb.1] at this
  have hlt := hk.lt
  obtain ⟨m', hrun, hmm, ht', hcopy⟩ := memcpy_spec (k + 1) dst src m2 fun b hb hb' => by
    have := (hread b hb).2.1
    exact absurd hb'.1 (by omega)
  refine ⟨m', hrun, ⟨mm1, hmm.trans hm, ho, hl⟩, ht.trans (ht'.mono hread fun b hb => ?_),
    ⟨fun _ => ⟨k, hk⟩, fun _ => rfl⟩, fun j hj i hi => ?_⟩
  · unfold Span at *
    omega
  · rw [hj.unique hlt hk.zero hk.first] at hi
    rw [hcopy i (by omega), hb]

/-- A part without a zero, and what comes after it. -/
theorem copies_next {mm1 : MmStruct} {m3 m4 : Memory} {r : Bool} (hd : userTop ≤ dst)
    (hn : n ≤ maxn) (hread : ∀ b, Span src n b → Readable mm b)
    (hne : ∀ i < n, m.byte (src + i) ≠ 0) (hl : mm1.mmapList = mm.mmapList)
    (ht : Touches m m3 (Readable mm) (Span dst n))
    (hcopy : ∀ i < n, m3.byte (dst + i) = m.byte (src + i))
    (h : Copies mm1 m3 m4 (dst + n) (src + n) (maxn - n) r) : Copies mm m m4 dst src maxn r := by
  have hsame : ∀ b, Readable mm b → m3.byte b = m.byte b := fun b hb => by
    have := hb.2.1
    exact ht.byte b fun hb' => absurd hb'.1 (by omega)
  have hiff : ∀ k, IsString mm m.byte src maxn k ↔
      n ≤ k ∧ IsString mm1 m3.byte (src + n) (maxn - n) (k - n) := fun k => by
    rw [isString_next hne hread hsame hn, IsString.congr hl]
  obtain ⟨mm', hmm, ho, hl'⟩ := h.areas
  refine ⟨⟨mm', hmm, ho, hl'.trans hl⟩, ?_, ?_, fun k hk i hi => ?_⟩
  · refine (ht.mono (fun _ => id) fun b hb => ?_).trans
      (h.touches.mono (fun b => (Readable.congr hl).1) fun b hb => ?_)
    · unfold Span at *
      omega
    · unfold Span at *
      omega
  · rw [h.ret]
    constructor
    · rintro ⟨k, hk⟩
      refine ⟨n + k, (hiff _).2 ⟨Nat.le_add_right _ _, ?_⟩⟩
      rwa [Nat.add_sub_cancel_left]
    · rintro ⟨k, hk⟩
      exact ⟨k - n, ((hiff k).1 hk).2⟩
  · by_cases hin : i < n
    · rw [h.touches.byte _ (by unfold Span; omega), hcopy i hin]
    · have := h.copied (k - n) ((hiff k).1 hk).2 (i - n) (by omega)
      rw [Nat.add_assoc, Nat.add_assoc, Nat.add_sub_cancel' (not_lt.1 hin)] at this
      rw [this, hsame _ (hk.readable i hi)]

/-- **The loop of `copy_string`** -/
theorem copyLoop_spec : ∀ n dst src maxn part mm m, m.mm = some mm → mm.Ordered → PageAligned mm →
    userTop ≤ dst → src < 2 ^ 64 → maxn < 2 ^ 64 → maxn < n → part = rest src →
    ∃ r m', copyLoop n dst src maxn part m = some (.ok r, m') ∧ Copies mm m m' dst src maxn r := by
  intro n
  induction n with
  | zero =>
    intro dst src maxn part mm m _ _ _ _ _ _ hn
    omega
  | succ n ih =>
    intro dst src maxn part mm m hm ho hp hd hs hb hn hpart
    subst hpart
    rw [copyLoop]
    obtain ⟨p, hpe⟩ : ∃ p, p = if maxn < rest src then maxn else rest src := ⟨_, rfl⟩
    have hple : p ≤ rest src ∧ p ≤ maxn := by
      split at hpe <;> omega
    have hrest : 0 < rest src := rest_pos
    simp only [← hpe]
    rcases Nat.eq_zero_or_pos p with h0 | hpos
    · subst h0
      have h0 : maxn = 0 := by
        split at hpe <;> omega
      have hno : ∀ k, ¬IsString mm m.byte src maxn k := fun k hk => by
        have := hk.lt
        omega
      rw [Code.bind_ok (check_run hm userMemCheck_zero)]
      exact ⟨false, _, rfl, ⟨mm, rfl, ho, rfl⟩, .refl rfl rfl rfl,
        ⟨nofun, fun ⟨k, hk⟩ => absurd hk (hno k)⟩, fun k hk => absurd hk (hno k)⟩
    · obtain ⟨r0, mm1, hchk, ho1, hl1, hr0⟩ := user_mem_check_exact (w := false) ho hs
        (hple.2.trans_lt hb) hpos
      rw [Code.bind_ok (check_run hm hchk)]
      rw [part_iff hp hpos hple.1] at hr0
      cases r0 with
      | false =>
        have hno : ∀ k, ¬IsString mm m.byte src maxn k := fun k hk =>
          absurd (hr0.2 (hk.readable 0 (Nat.zero_le _))) Bool.false_ne_true
        exact ⟨false, _, rfl, ⟨mm1, rfl, ho1, hl1⟩, .refl rfl rfl rfl,
          ⟨nofun, fun ⟨k, hk⟩ => absurd hk (hno k)⟩, fun k hk => absurd hk (hno k)⟩
      | true =>
        have hread : ∀ b, Span src p b → Readable mm b := fun b hb => by
          refine (hr0.1 rfl).page hp (rest_page ⟨hb.1, ?_⟩)
          have := hb.2
          omega
        obtain ⟨k, m2, hrun, hmm2, hb2, ht2, hle, hne, hz⟩ := strnlen_spec p src
          { m with mm := some mm1 }
        have ht1 : Touches m { m with mm := some mm1 } (Readable mm) (Span dst p) :=
          .refl rfl rfl rfl
        have ht := ht1.trans (ht2.mono hread fun _ => False.elim)
        have hbyte : m2.byte = m.byte := hb2
        simp only [Bool.not_true, Bool.false_eq_true, if_false]
        rw [Code.bind_ok hrun]
        by_cases hk : k < p
        · have hstr : IsString mm m.byte src maxn k :=
            ⟨by omega, hz hk, hne, fun i hi => hread _ ⟨by omega, by omega⟩⟩
          obtain ⟨m', hcpy, hdone⟩ := copies_last hstr hd hmm2 ho1 hl1 hbyte
            (ht.mono (fun _ => id) fun b hb => ⟨hb.1, by have := hb.2; omega⟩)
          refine ⟨true, m', ?_, hdone⟩
          rw [if_pos hk, Code.bind_ok hcpy]
          rfl
        · have hkp : k = p := by omega
          subst hkp
          rw [if_neg hk]
          by_cases hmax : k = maxn
          · have hno : ∀ j, ¬IsString mm m.byte src maxn j := fun j hj =>
              hne j (by have := hj.lt; omega) hj.zero
            subst hmax
            refine ⟨false, m2, by rw [if_pos rfl]; rfl, ⟨mm1, hmm2, ho1, hl1⟩, ht,
              ⟨nofun, fun ⟨j, hj⟩ => absurd hj (hno j)⟩, fun j hj => absurd hj (hno j)⟩
          · have hk' : k = rest src := by
              split at hpe <;> omega
            obtain ⟨m3, hcpy, hmm3, ht3, hcopy⟩ := memcpy_spec k dst src m2 fun b hb hb' => by
              have := (hread b hb).2.1
              exact absurd hb'.1 (by omega)
            have hlast := (hread (src + k - 1) ⟨by omega, by omega⟩).2.1
            have hp1 : PageAligned mm1 := by
              unfold PageAligned
              rwa [hl1]
            obtain ⟨r, m4, hrec, hdone⟩ := ih (dst + k) (src + k) (maxn - k) pgSize mm1 m3
              (hmm3.trans hmm2) ho1 hp1 (by omega) (by unfold userTop at hlast; omega) (by omega)
              (by omega) (by rw [hk', rest_next])
            refine ⟨r, m4, ?_, copies_next hd hple.2 hread hne hl1
              (ht.trans (ht3.mono hread fun _ => id)) (fun i hi => ?_) hdone⟩
            · rw [if_neg hmax, Code.bind_ok hcpy]
              exact hrec
            · rw [hcopy i hi, hbyte]

/-- A string of one byte, at the end of a page. -/
def oneByte : Memory where
  mm := some twoAreas
  byte a := if a = 0x200FFF then 0x61 else 0
  reads := []
  writes := []

end Ucore.Vmm
