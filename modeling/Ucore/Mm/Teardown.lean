/-
  `exit_range`: the page tables of a process that ends are given back.

  The tables are numbered: table `n` is for the addresses from `n * PTSIZE` on.

  * `PtTree`: the tables of a page directory; `exit` and `Gives` are what is left of them, and what
    is given back, after a range;
  * `Shell`: the pages of a page directory that maps nothing, and is in no use;
  * `exitRange_spec`: `exit_range` gives back what `Gives` says.
-/
import Ucore.Mm.Ranges

namespace Ucore.Pmm

/-! ## What a range gives back -/

/-- The level 0 directories and the page tables below a page directory. -/
@[ext]
structure PtTree where
  dir : ℕ → Option ℕ
  table : ℕ → Option ℕ

namespace PtTree

variable {T : PtTree} {a b c i n p : ℕ}

/-- The range goes through tables of directory `i`, and finds each of them. -/
def Covered (T : PtTree) (a b i : ℕ) : Prop :=
  (∃ n ∈ Finset.Ico a b, n / 512 = i) ∧ ∀ n ∈ Finset.Ico a b, n / 512 = i → T.table n ≠ none

instance : Decidable (T.Covered a b i) := inferInstanceAs (Decidable (_ ∧ _))

/-- The tables from `a` on and below `b` are gone. -/
def sweep (a b : ℕ) (T : PtTree) : PtTree where
  dir := T.dir
  table n := if a ≤ n ∧ n < b then none else T.table n

/-- Directory `i` is gone. -/
def drop (i : ℕ) (T : PtTree) : PtTree where
  dir i' := if i' = i then none else T.dir i'
  table n := if n / 512 = i then none else T.table n

/-- What is left after `exit_range`: a directory goes with the last table that the range finds in
    it, even if there are tables in it outside of the range. -/
def exit (a b : ℕ) (T : PtTree) : PtTree where
  dir i := if T.Covered a b i then none else T.dir i
  table n := if a ≤ n ∧ n < b ∨ T.Covered a b (n / 512) then none else T.table n

/-- The page is given back by `exit_range`. -/
def Gives (T : PtTree) (a b p : ℕ) : Prop :=
  (∃ n, a ≤ n ∧ n < b ∧ T.table n = some p) ∨ ∃ i, T.Covered a b i ∧ T.dir i = some p

theorem covered_left (hc : c % 512 = 0) (hi : i < c / 512) (hb : c ≤ b) :
    T.Covered a b i ↔ T.Covered a c i := by
  have hiff : ∀ n, n / 512 = i → (n ∈ Finset.Ico a b ↔ n ∈ Finset.Ico a c) := fun n hn => by
    rw [Finset.mem_Ico, Finset.mem_Ico]
    omega
  exact and_congr
    (exists_congr fun n => and_congr_left fun hn => hiff n hn)
    (forall_congr' fun n => ⟨fun h hm hn => h ((hiff n hn).2 hm) hn,
      fun h hm hn => h ((hiff n hn).1 hm) hn⟩)

theorem not_covered (h : ∀ n, a ≤ n → n < b → n / 512 ≠ i) : ¬T.Covered a b i := by
  rintro ⟨⟨n, hn, e⟩, -⟩
  rw [Finset.mem_Ico] at hn
  exact h n hn.1 hn.2 e

theorem covered_right (hc : c % 512 = 0) (hi : c / 512 ≤ i) (ha : a ≤ c) :
    T.Covered a b i ↔ (T.exit a c).Covered c b i := by
  have hiff : ∀ n, n / 512 = i → (n ∈ Finset.Ico a b ↔ n ∈ Finset.Ico c b) := fun n hn => by
    rw [Finset.mem_Ico, Finset.mem_Ico]
    omega
  have htab : ∀ n, n ∈ Finset.Ico c b → n / 512 = i → (T.exit a c).table n = T.table n :=
    fun n hm hn => by
      rw [Finset.mem_Ico] at hm
      refine if_neg ?_
      rintro (h | h)
      · omega
      · exact not_covered (fun m _ hm' => by omega) h
  refine and_congr (exists_congr fun n => and_congr_left fun hn => hiff n hn)
    (forall_congr' fun n => ⟨fun h hm hn => ?_, fun h hm hn => ?_⟩)
  · rw [htab n hm hn]
    exact h ((hiff n hn).2 hm) hn
  · rw [← htab n ((hiff n hn).1 hm) hn]
    exact h ((hiff n hn).1 hm) hn

/-- A range can be cut where a directory ends. -/
theorem exit_exit (hc : c % 512 = 0) (ha : a ≤ c) (hb : c ≤ b) :
    (T.exit a c).exit c b = T.exit a b := by
  have hleft : ∀ i, i < c / 512 → ¬(T.exit a c).Covered c b i := fun i hi =>
    not_covered fun n h1 h2 => by omega
  have hright : ∀ i, c / 512 ≤ i → ¬T.Covered a c i := fun i hi =>
    not_covered fun n h1 h2 => by omega
  refine PtTree.ext (funext fun i => ?_) (funext fun n => ?_)
  · by_cases hi : i < c / 512
    · change (if (T.exit a c).Covered c b i then none
        else if T.Covered a c i then none else T.dir i) = if T.Covered a b i then none else T.dir i
      rw [if_neg (hleft i hi), if_congr (covered_left hc hi hb) rfl rfl]
    · change (if (T.exit a c).Covered c b i then none
        else if T.Covered a c i then none else T.dir i) = if T.Covered a b i then none else T.dir i
      rw [if_neg (hright i (not_lt.1 hi)), if_congr (covered_right hc (not_lt.1 hi) ha) rfl rfl]
  · change (if c ≤ n ∧ n < b ∨ (T.exit a c).Covered c b (n / 512) then none
      else if a ≤ n ∧ n < c ∨ T.Covered a c (n / 512) then none else T.table n) =
        if a ≤ n ∧ n < b ∨ T.Covered a b (n / 512) then none else T.table n
    by_cases hn : n < c
    · have hi : n / 512 < c / 512 := by omega
      rw [if_neg (by simp [hleft _ hi]; omega)]
      refine if_congr ?_ rfl rfl
      rw [covered_left hc hi hb]
      exact or_congr_left (by omega)
    · have hi : c / 512 ≤ n / 512 := by omega
      rw [if_neg (c := a ≤ n ∧ n < c ∨ _) (by simp [hright _ hi]; omega)]
      refine if_congr ?_ rfl rfl
      rw [covered_right hc hi ha]
      exact or_congr_left (by omega)

theorem gives_exit (hc : c % 512 = 0) (ha : a ≤ c) (hb : c ≤ b) :
    T.Gives a c p ∨ (T.exit a c).Gives c b p ↔ T.Gives a b p := by
  have hright : ∀ i, c / 512 ≤ i → ¬T.Covered a c i := fun i hi =>
    not_covered fun n h1 h2 => by omega
  have htab : ∀ n, c ≤ n → (T.exit a c).table n = T.table n := fun n hn => if_neg (by
    simp [hright (n / 512) (by omega)]
    omega)
  have hdir : ∀ i, c / 512 ≤ i → (T.exit a c).dir i = T.dir i := fun i hi => if_neg (hright i hi)
  constructor
  · rintro ((⟨n, h1, h2, h3⟩ | ⟨i, h1, h2⟩) | (⟨n, h1, h2, h3⟩ | ⟨i, h1, h2⟩))
    · exact .inl ⟨n, h1, by omega, h3⟩
    · have hi : i < c / 512 := by
        by_contra hi
        exact hright i (not_lt.1 hi) h1
      exact .inr ⟨i, (covered_left hc hi hb).2 h1, h2⟩
    · exact .inl ⟨n, by omega, h2, (htab n h1).symm.trans h3⟩
    · have hi : c / 512 ≤ i := by
        by_contra hi
        exact not_covered (fun n h1 h2 => by omega) h1
      exact .inr ⟨i, (covered_right hc hi ha).2 h1, (hdir i hi).symm.trans h2⟩
  · rintro (⟨n, h1, h2, h3⟩ | ⟨i, h1, h2⟩)
    · by_cases hn : n < c
      · exact .inl (.inl ⟨n, h1, hn, h3⟩)
      · exact .inr (.inl ⟨n, not_lt.1 hn, h2, (htab n (not_lt.1 hn)).trans h3⟩)
    · by_cases hi : i < c / 512
      · exact .inl (.inr ⟨i, (covered_left hc hi hb).1 h1, h2⟩)
      · exact .inr (.inr ⟨i, (covered_right hc (not_lt.1 hi) ha).1 h1,
          (hdir i (not_lt.1 hi)).trans h2⟩)

/-- `exit_range` for each of some ranges of tables. -/
def exitAll : List (ℕ × ℕ) → PtTree → PtTree
  | [], T => T
  | v :: l, T => exitAll l (T.exit v.1 v.2)

def GivesAll : List (ℕ × ℕ) → PtTree → ℕ → Prop
  | [], _, _ => False
  | v :: l, T, p => T.Gives v.1 v.2 p ∨ GivesAll l (T.exit v.1 v.2) p

theorem exitAll_cons {v : ℕ × ℕ} {l : List (ℕ × ℕ)} :
    exitAll (v :: l) T = exitAll l (T.exit v.1 v.2) := rfl

theorem givesAll_cons {v : ℕ × ℕ} {l : List (ℕ × ℕ)} :
    GivesAll (v :: l) T p ↔ T.Gives v.1 v.2 p ∨ GivesAll l (T.exit v.1 v.2) p := .rfl

/-- The page is one of directory `i`, or of a table in it. -/
def Has (T : PtTree) (i p : ℕ) : Prop := T.dir i = some p ∨ ∃ n, n / 512 = i ∧ T.table n = some p

theorem Has.of_exit {a b : ℕ} (h : (T.exit a b).Has i p) : T.Has i p := by
  obtain h | ⟨n, hn, h⟩ := h
  · change (if _ then none else T.dir i) = some p at h
    split at h
    · cases h
    · exact .inl h
  · change (if _ then none else T.table n) = some p at h
    split at h
    · cases h
    · exact .inr ⟨n, hn, h⟩

/-- Only pages of the tree are given back. -/
theorem GivesAll.has {l : List (ℕ × ℕ)} (h : GivesAll l T p) : ∃ i, T.Has i p := by
  induction l generalizing T with
  | nil => exact h.elim
  | cons v l ih =>
    obtain (⟨n, -, -, hn⟩ | ⟨i, -, hi⟩) | h := h
    · exact ⟨n / 512, .inr ⟨n, rfl, hn⟩⟩
    · exact ⟨i, .inl hi⟩
    · obtain ⟨i, hi⟩ := ih h
      exact ⟨i, hi.of_exit⟩

/-- The range goes through all tables of the directories that it comes to, and through no others. -/
def Fills (T : PtTree) (v : ℕ × ℕ) : Prop :=
  ∀ n, v.1 ≤ n → n < v.2 → ∀ m, m / 512 = n / 512 → (T.table m ≠ none ↔ v.1 ≤ m ∧ m < v.2)

/-- Directory `i` is as it was, or there is nothing left of it. -/
def Whole (T T' : PtTree) (i : ℕ) : Prop :=
  (T'.dir i = T.dir i ∧ ∀ m, m / 512 = i → T'.table m = T.table m) ∨ ∀ p, ¬T'.Has i p

theorem whole_exit {T' : PtTree} {v : ℕ × ℕ} (hf : T.Fills v) (h : ∀ i, Whole T T' i) (i : ℕ) :
    Whole T (T'.exit v.1 v.2) i := by
  by_cases hv : ∃ n, v.1 ≤ n ∧ n < v.2 ∧ n / 512 = i
  · refine .inr fun p hp => ?_
    obtain ⟨n, h1, h2, rfl⟩ := hv
    obtain ⟨e, e'⟩ | hno := h (n / 512)
    · have hcov : T'.Covered v.1 v.2 (n / 512) := by
        refine ⟨⟨n, Finset.mem_Ico.2 ⟨h1, h2⟩, rfl⟩, fun m hm hmn => ?_⟩
        rw [e' m hmn]
        exact (hf n h1 h2 m hmn).2 (Finset.mem_Ico.1 hm)
      obtain hp | ⟨m, hm, hp⟩ := hp
      · cases (if_pos hcov).symm.trans hp
      · cases (if_pos (.inr (hm ▸ hcov))).symm.trans hp
    · obtain hp | ⟨m, hm, hp⟩ := hp
      · change (if _ then none else T'.dir _) = _ at hp
        split at hp
        · cases hp
        · exact hno p (.inl hp)
      · change (if _ then none else T'.table _) = _ at hp
        split at hp
        · cases hp
        · exact hno p (.inr ⟨m, hm, hp⟩)
  · have hno : ¬T'.Covered v.1 v.2 i := not_covered fun n h1 h2 e => hv ⟨n, h1, h2, e⟩
    have hdir : (T'.exit v.1 v.2).dir i = T'.dir i := if_neg hno
    have htab : ∀ m, m / 512 = i → (T'.exit v.1 v.2).table m = T'.table m := fun m hm => if_neg (by
      rintro (h | h)
      · exact hv ⟨m, h.1, h.2, hm⟩
      · exact hno (hm ▸ h))
    refine (h i).imp (fun ⟨e, e'⟩ => ⟨hdir.trans e, fun m hm => (htab m hm).trans (e' m hm)⟩)
      fun hno p hp => hno p ?_
    exact hp.imp hdir.symm.trans fun ⟨m, hm, hp⟩ => ⟨m, hm, (htab m hm).symm.trans hp⟩

/-- **Nothing is lost** of the directories that the ranges come to, if each range goes through all
tables of those that it comes to. -/
theorem givesAll_of_fills {l : List (ℕ × ℕ)} (hf : ∀ v ∈ l, T.Fills v) {T' : PtTree}
    (h : ∀ i, Whole T T' i) (hi : ∃ v ∈ l, ∃ n, v.1 ≤ n ∧ n < v.2 ∧ n / 512 = i)
    (hp : T'.Has i p) : GivesAll l T' p := by
  induction l generalizing T' with
  | nil =>
    obtain ⟨v, hv, -⟩ := hi
    cases hv
  | cons v l ih =>
    have hfv := hf v (List.mem_cons_self ..)
    by_cases hv : ∃ n, v.1 ≤ n ∧ n < v.2 ∧ n / 512 = i
    · obtain ⟨n, h1, h2, rfl⟩ := hv
      refine .inl ?_
      obtain ⟨e, e'⟩ | hno := h (n / 512)
      · obtain hp | ⟨m, hm, hp⟩ := hp
        · refine .inr ⟨n / 512, ⟨⟨n, Finset.mem_Ico.2 ⟨h1, h2⟩, rfl⟩, fun m hm hmn => ?_⟩, hp⟩
          rw [e' m hmn]
          exact (hfv n h1 h2 m hmn).2 (Finset.mem_Ico.1 hm)
        · have hne : T.table m ≠ none := by
            rw [← e' m hm, hp]
            simp
          obtain ⟨g1, g2⟩ := (hfv n h1 h2 m hm).1 hne
          exact .inl ⟨m, g1, g2, hp⟩
      · exact absurd hp (hno p)
    · refine .inr (ih (fun w hw => hf w (List.mem_cons_of_mem _ hw)) (whole_exit hfv h) ?_ ?_)
      · obtain ⟨w, hw, hn⟩ := hi
        obtain rfl | hw := List.mem_cons.1 hw
        · exact absurd hn hv
        · exact ⟨w, hw, hn⟩
      · have hno : ¬T'.Covered v.1 v.2 i := not_covered fun n h1 h2 e => hv ⟨n, h1, h2, e⟩
        refine hp.imp (if_neg hno).trans fun ⟨m, hm, hp⟩ => ⟨m, hm, (if_neg ?_).trans hp⟩
        rintro (h | h)
        · exact hv ⟨m, h.1, h.2, hm⟩
        · exact hno (hm ▸ h)

end PtTree

/-! ## Pages in no use -/

variable {s t u : Phys} {D I : Finset ℕ} {role role' role'' : ℕ → Role} {x : ℕ → ℕ}
  {p q r i j d n pt fuel start end_ : ℕ} {T : PtTree} {G G' : ℕ → Prop}

namespace Frames

/-- A page in no use is freed. -/
theorem giveOther (h : Frames s D I role x) (hp : role p = .other) (hlt : p < s.npage) :
    Frames (s.give p 1) D I (Function.update role p .free) x := by
  have hold : ∀ {q}, q ≠ p → Function.update role p .free q = role q := fun hq =>
    Function.update_of_ne hq _ _
  refine ⟨h.congr (fun _ _ => rfl) (fun q => ?_) (fun q => ?_) rfl fun q hq => .inl ?_,
    fun q hq => ?_, fun q hq => ?_⟩
  · by_cases e : q = p
    · rw [e, Function.update_self, hp]
      exact .inr ⟨id, id, hlt⟩
    · exact .inl (hold e)
  · rw [Phys.free_give, Finset.mem_union, Finset.mem_singleton, h.free]
    by_cases e : q = p
    · simp [e]
    · rw [hold e]
      simp [e]
  · rw [hold (role_ne hq hp (by simp)), hq]
  · have hne : q ≠ p := fun e => by simp [e] at hq
    rw [hold hne] at hq
    have hm : (s.give p 1).maps D I q = s.maps D I q := Phys.maps_word rfl
    rw [Phys.ref_give, if_neg hne, hm]
    exact h.ref_user q hq
  · rw [Phys.ref_give]
    split
    · rfl
    · rename_i hne
      rw [hold hne] at hq
      exact h.ref_free q hq

/-- A page in no use is written. -/
theorem setOther {w : BitVec 64} (h : Frames s D I role x) (hp : role p = .other) :
    Frames (s.setWord p j w) D I role x := by
  have hw : ∀ q, (role q).Node → (s.setWord p j w).word q = s.word q := fun q hq =>
    Phys.word_setWord_ne (fun e => by
      rw [e, hp] at hq
      exact hq) w
  have hT : Tables (s.setWord p j w) D I role :=
    h.congr hw (fun _ => .inl rfl) h.free rfl fun _ hq => .inl hq
  refine ⟨hT, fun q hq => ?_, h.ref_free⟩
  have hm : (s.setWord p j w).maps D I q = s.maps D I q := maps_congr <|
    h.pte_congr hT (fun _ _ _ _ => .rfl) fun q r i j hq => hw q (by rw [hq]; trivial)
  rw [hm]
  exact h.ref_user q hq

end Frames

/-- The pages `G`, which were in no use, are free, and only such pages have been written. -/
structure GivenBack (s t : Phys) (role role' : ℕ → Role) (G : ℕ → Prop) : Prop where
  gives : ∀ p, G p → role p = .other ∧ role' p = .free
  keep : ∀ p, ¬G p → role' p = role p
  word : ∀ p, role p ≠ .other → t.word p = s.word p
  ref : ∀ p, ¬G p → t.ref p = s.ref p
  npage : t.npage = s.npage

namespace GivenBack

theorem refl : GivenBack s s role role fun _ => False where
  gives _ h := h.elim
  keep _ _ := rfl
  word _ _ := rfl
  ref _ _ := rfl
  npage := rfl

theorem congr (h : GivenBack s t role role' G) (hG : ∀ p, G p ↔ G' p) :
    GivenBack s t role role' G' := (funext fun p => propext (hG p) : G = G') ▸ h

theorem trans (h : GivenBack s t role role' G) (h' : GivenBack t u role' role'' G') :
    GivenBack s u role role'' fun p => G p ∨ G' p where
  gives p := by
    rintro (hp | hp)
    · obtain ⟨h1, h2⟩ := h.gives p hp
      refine ⟨h1, (h'.keep p fun hp' => ?_).trans h2⟩
      cases h2.symm.trans (h'.gives p hp').1
    · obtain ⟨h1, h2⟩ := h'.gives p hp
      refine ⟨(h.keep p fun hp' => ?_).symm.trans h1, h2⟩
      cases (h.gives p hp').2.symm.trans h1
  keep p hp := (h'.keep p fun h' => hp (.inr h')).trans (h.keep p fun h' => hp (.inl h'))
  word p hp := by
    have hG : ¬G p := fun hG => hp (h.gives p hG).1
    rw [h'.word p ((h.keep p hG).trans_ne hp), h.word p hp]
  ref p hp := (h'.ref p fun h' => hp (.inr h')).trans (h.ref p fun h' => hp (.inl h'))
  npage := h'.npage.trans h.npage

theorem role_iff {y : Role} (h : GivenBack s t role role' G) (h1 : y ≠ .free) (h2 : y ≠ .other) :
    role' p = y ↔ role p = y := by
  by_cases hp : G p
  · obtain ⟨e, e'⟩ := h.gives p hp
    rw [e, e']
    exact ⟨fun e => absurd e.symm h1, fun e => absurd e.symm h2⟩
  · rw [h.keep p hp]

theorem free_iff (h : GivenBack s t role role' G) (hs : Tables s D I role)
    (ht : Tables t D I role') : p ∈ t.free ↔ p ∈ s.free ∨ G p := by
  rw [ht.free, hs.free]
  by_cases hp : G p
  · exact iff_of_true (h.gives p hp).2 (.inr hp)
  · rw [h.keep p hp]
    exact (or_iff_left hp).symm

theorem pte (h : GivenBack s t role role' G) (hs : Tables s D I role) (ht : Tables t D I role') :
    ∀ z ∈ slots D I, t.pte z = s.pte z :=
  hs.pte_congr ht (fun _ _ _ _ => h.role_iff (by simp) (by simp))
    fun p r i j hp => h.word p (by simp [hp])

end GivenBack

/-! ## An empty page directory -/

/-- The tree below a page directory. -/
def Phys.tree (s : Phys) (I : Finset ℕ) (r : ℕ) : PtTree where
  dir i := if i ∈ I then s.dirAt r i else none
  table n := if n / 512 ∈ I then s.tableAt r (n / 512) (n % 512) else none

/-- The pages of a page directory that maps nothing; they are in no use. -/
structure Shell (s : Phys) (I : Finset ℕ) (r : ℕ) (role : ℕ → Role) : Prop where
  root : role r = .other
  root_lt : r < s.npage
  dir : ∀ i d, (s.tree I r).dir i = some d → role d = .other ∧ d < s.npage ∧ d ≠ r
  dir_inj : ∀ i i' d, (s.tree I r).dir i = some d → (s.tree I r).dir i' = some d → i = i'
  table : ∀ n p, (s.tree I r).table n = some p → role p = .other ∧ p < s.npage ∧ p ≠ r ∧
    (∀ i, (s.tree I r).dir i ≠ some p) ∧ tableEmpty (s.word p) = true
  table_inj : ∀ n n' p, (s.tree I r).table n = some p → (s.tree I r).table n' = some p → n = n'

/-- A part of the pages is given back. -/
structure Torn (s t : Phys) (D I : Finset ℕ) (r : ℕ) (role role' : ℕ → Role) (T : PtTree)
    (G : ℕ → Prop) : Prop extends GivenBack s t role role' G where
  frames : Frames t D I role' 0
  shell : Shell t I r role'
  tree : t.tree I r = T

theorem tree_table {T : PtTree} (hT : s.tree I r = T) :
    T.table n = (T.dir (n / 512)).bind fun d => entry (s.word d (n % 512)) := by
  subst hT
  change (if _ then _ else _) = Option.bind (if _ then _ else _) _
  split
  · rfl
  · rfl

theorem table_of_mem (h : n / 512 ∈ I) :
    (s.tree I r).table n = s.tableAt r (n / 512) (n % 512) := if_pos h

theorem tree_dir_some (h : (s.tree I r).dir i = some d) : i ∈ I ∧ entry (s.word r i) = some d := by
  change (if i ∈ I then s.dirAt r i else none) = some d at h
  split at h
  · rename_i hi
    exact ⟨hi, h⟩
  · cases h

/-- The pages of the tree are those with its roles. -/
theorem Tables.has_iff (h : Tables s D I role) (hr : r ∈ D) : (∃ i, (s.tree I r).Has i p) ↔
    (∃ i, role p = .dir r i) ∨ ∃ i j, role p = .table r i j := by
  constructor
  · rintro ⟨i, hp | ⟨n, -, hp⟩⟩
    · obtain ⟨hi, he⟩ := tree_dir_some hp
      exact .inl ⟨i, (h.dir r hr i hi p).1 he⟩
    · change (if n / 512 ∈ I then _ else none) = some p at hp
      split at hp
      · rename_i hi
        exact .inr ⟨_, _, (h.tableAt_iff hr hi).1 hp⟩
      · cases hp
  · rintro (⟨i, hp⟩ | ⟨i, j, hp⟩)
    · obtain ⟨-, hi⟩ := h.dirs p r i hp
      exact ⟨i, .inl ((if_pos hi).trans ((h.dirAt_iff hr hi).2 hp))⟩
    · obtain ⟨hj, d, hd⟩ := h.tables p r i j hp
      obtain ⟨-, hi⟩ := h.dirs d r i hd
      have e1 : (i * 512 + j) / 512 = i := by omega
      have e2 : (i * 512 + j) % 512 = j := by omega
      refine ⟨i, .inr ⟨i * 512 + j, e1, ?_⟩⟩
      change (if (i * 512 + j) / 512 ∈ I then s.tableAt r ((i * 512 + j) / 512)
        ((i * 512 + j) % 512) else none) = some p
      rw [e1, e2, if_pos hi]
      exact (h.tableAt_iff hr hi).2 hp

/-- A part of the tree is left. -/
theorem Shell.sub (h : Shell s I r role) (hn : t.npage = s.npage) (hr : role' r = role r)
    (hdir : ∀ i d, (t.tree I r).dir i = some d → (s.tree I r).dir i = some d ∧ role' d = role d)
    (htab : ∀ n p, (t.tree I r).table n = some p → (s.tree I r).table n = some p ∧
      role' p = role p ∧ t.word p = s.word p) : Shell t I r role' where
  root := hr.trans h.root
  root_lt := hn ▸ h.root_lt
  dir i d hd := by
    obtain ⟨hd, hrole⟩ := hdir i d hd
    obtain ⟨h1, h2, h3⟩ := h.dir i d hd
    exact ⟨hrole.trans h1, hn ▸ h2, h3⟩
  dir_inj i i' d hd hd' := h.dir_inj i i' d (hdir i d hd).1 (hdir i' d hd').1
  table n p hp := by
    obtain ⟨hp, hrole, hword⟩ := htab n p hp
    obtain ⟨h1, h2, h3, h4, h5⟩ := h.table n p hp
    exact ⟨hrole.trans h1, hn ▸ h2, h3, fun i hi => h4 i (hdir i p hi).1, hword ▸ h5⟩
  table_inj n n' p hp hp' := h.table_inj n n' p (htab n p hp).1 (htab n' p hp').1

theorem givenBack_one {w : BitVec 64} (hp : role p = .other) (hq : role q = .other) :
    GivenBack s ((s.give p 1).setWord q j w) role (Function.update role p .free) (p = ·) where
  gives p' hp' := by
    subst hp'
    exact ⟨hp, Function.update_self ..⟩
  keep p' hne := Function.update_of_ne (Ne.symm hne) _ _
  word p' hp' := Phys.word_setWord_ne (fun e : p' = q => hp' (e ▸ hq)) w
  ref p' hne := by
    change (s.give p 1).ref p' = s.ref p'
    rw [Phys.ref_give, if_neg (Ne.symm hne)]
  npage := rfl

/-- A page table is freed. -/
theorem Shell.freeTable (hS : Shell s I r role) (hF : Frames s D I role 0)
    (hd : (s.tree I r).dir (n / 512) = some d) (hpt : (s.tree I r).table n = some pt) :
    Torn s ((s.give pt 1).setWord d (n % 512) 0) D I r role (Function.update role pt .free)
      ((s.tree I r).sweep n (n + 1)) (pt = ·) := by
  obtain ⟨h1, h2, h3, h4, -⟩ := hS.table n pt hpt
  obtain ⟨g1, -, g3⟩ := hS.dir _ d hd
  have hdpt : d ≠ pt := fun e => h4 _ (e ▸ hd)
  have hold : ∀ {q}, q ≠ pt → Function.update role pt .free q = role q := fun hq =>
    Function.update_of_ne hq _ _
  have hword : ∀ q, q ≠ d → ((s.give pt 1).setWord d (n % 512) 0).word q = s.word q := fun q hq =>
    Phys.word_setWord_ne hq 0
  have htree : ((s.give pt 1).setWord d (n % 512) 0).tree I r = (s.tree I r).sweep n (n + 1) := by
    have hdirs : (((s.give pt 1).setWord d (n % 512) 0).tree I r).dir = (s.tree I r).dir := by
      funext i
      change (if i ∈ I then entry _ else none) = if i ∈ I then entry _ else none
      rw [hword r g3.symm]
    refine PtTree.ext hdirs (funext fun m => ?_)
    rw [tree_table rfl, hdirs]
    change _ = if n ≤ m ∧ m < n + 1 then none else (s.tree I r).table m
    rw [tree_table rfl]
    cases hm : (s.tree I r).dir (m / 512) with
    | none => simp
    | some d' =>
      change entry (((s.give pt 1).setWord d (n % 512) 0).word d' (m % 512)) =
        if n ≤ m ∧ m < n + 1 then none else entry (s.word d' (m % 512))
      rw [Phys.word_setWord]
      by_cases hmn : m = n
      · subst hmn
        rw [if_pos ⟨Option.some.inj (hm.symm.trans hd), rfl⟩, if_pos (by omega), entry_zero]
      · rw [if_neg, if_neg (by omega)]
        · rfl
        · rintro ⟨rfl, hmod⟩
          have := hS.dir_inj _ _ _ hm hd
          omega
  refine ⟨givenBack_one h1 g1, (hF.giveOther h1 h2).setOther ((hold hdpt).trans g1),
    hS.sub rfl (hold h3.symm) (fun i d' hd' => ?_) (fun m p hp => ?_), htree⟩
  · rw [htree] at hd'
    exact ⟨hd', hold fun e => h4 i (e ▸ hd')⟩
  · rw [htree] at hp
    change (if n ≤ m ∧ m < n + 1 then none else (s.tree I r).table m) = some p at hp
    split at hp
    · cases hp
    · rename_i hmn
      refine ⟨hp, hold fun e => ?_, hword p fun e => ?_⟩
      · have := hS.table_inj m n pt (e ▸ hp) hpt
        omega
      · exact (hS.table m p hp).2.2.2.1 _ (e ▸ hd)

/-- A level 0 directory is freed. -/
theorem Shell.freeDir (hS : Shell s I r role) (hF : Frames s D I role 0)
    (hd : (s.tree I r).dir i = some d) :
    Torn s ((s.give d 1).setWord r i 0) D I r role (Function.update role d .free)
      ((s.tree I r).drop i) (d = ·) := by
  obtain ⟨g1, g2, g3⟩ := hS.dir _ d hd
  have hold : ∀ {q}, q ≠ d → Function.update role d .free q = role q := fun hq =>
    Function.update_of_ne hq _ _
  have hword : ∀ q, q ≠ r → ((s.give d 1).setWord r i 0).word q = s.word q := fun q hq =>
    Phys.word_setWord_ne hq 0
  have hdirs : ∀ i', (((s.give d 1).setWord r i 0).tree I r).dir i' =
      if i' = i then none else (s.tree I r).dir i' := fun i' => by
    change (if i' ∈ I then entry _ else none) =
      if i' = i then none else if i' ∈ I then entry _ else none
    rw [Phys.word_setWord]
    by_cases e : i' = i
    · rw [if_pos e, if_pos (c := r = r ∧ i' = i) ⟨rfl, e⟩, entry_zero, ite_self]
    · rw [if_neg e, if_neg (c := r = r ∧ i' = i) fun h => e h.2]
      rfl
  have htree : ((s.give d 1).setWord r i 0).tree I r = (s.tree I r).drop i := by
    refine PtTree.ext (funext hdirs) (funext fun m => ?_)
    rw [tree_table rfl, hdirs]
    change _ = if m / 512 = i then none else (s.tree I r).table m
    split
    · rfl
    · rw [tree_table rfl]
      cases hm : (s.tree I r).dir (m / 512) with
      | none => rfl
      | some d' =>
        exact congrArg (fun w : ℕ → BitVec 64 => entry (w (m % 512)))
          (hword d' (hS.dir _ d' hm).2.2)
  refine ⟨givenBack_one g1 hS.root, (hF.giveOther g1 g2).setOther ((hold g3.symm).trans hS.root),
    hS.sub rfl (hold g3.symm) (fun i' d' hd' => ?_) (fun m p hp => ?_), htree⟩
  · rw [hdirs] at hd'
    split at hd'
    · cases hd'
    · rename_i hne
      exact ⟨hd', hold fun e => hne (hS.dir_inj i' i d (e ▸ hd') hd)⟩
  · rw [htree] at hp
    change (if m / 512 = i then none else (s.tree I r).table m) = some p at hp
    split at hp
    · cases hp
    · obtain ⟨-, -, h3, h4, -⟩ := hS.table m p hp
      exact ⟨hp, hold fun e => h4 _ (e ▸ hd), hword p h3⟩

/-! ## `exit_range` -/

/-- The tables up to an address. -/
def tablesEnd (end_ : ℕ) : ℕ := (end_ + ptSize - 1) / ptSize

theorem Torn.refl (hF : Frames s D I role 0) (hS : Shell s I r role) :
    Torn s s D I r role role (s.tree I r) fun _ => False :=
  ⟨.refl, hF, hS, rfl⟩

theorem Torn.trans {T' : PtTree} (h : Torn s t D I r role role' T G)
    (h' : Torn t u D I r role' role'' T' G') :
    Torn s u D I r role role'' T' fun p => G p ∨ G' p :=
  ⟨h.toGivenBack.trans h'.toGivenBack, h'.frames, h'.shell, h'.tree⟩

theorem Torn.congr {T' : PtTree} (h : Torn s t D I r role role' T G) (hT : T = T')
    (hG : ∀ p, G p ↔ G' p) : Torn s t D I r role role' T' G' :=
  ⟨h.toGivenBack.congr hG, h.frames, h.shell, h.tree.trans hT⟩

theorem lt_tablesEnd : n < tablesEnd end_ ↔ n * ptSize < end_ := by
  unfold tablesEnd ptSize pgSize
  omega

theorem pdx0_table : pdx0 (n * ptSize) = n % 512 := by
  rw [pdx0_eq]
  unfold ptSize pgSize
  omega

/-- What `exit_range` does about a page table; returns `free_pd0`. -/
def exitTable (pd0 d0start : ℕ) (freePd0 : Bool) : M Bool := do
  let s ← Code.get
  let pde0 := s.word pd0 (pdx0 d0start)
  if pteValid pde0 then do
    let pt ← pde2page pde0
    if tableEmpty (s.word pt) then do
      freePages pt 1
      setWord pd0 (pdx0 d0start) 0
    else pure ()
    pure freePd0
  else pure false

theorem exitDir_succ {a dirEnd : ℕ} {b : Bool} : exitDir d dirEnd end_ (fuel + 1) a b =
    exitTable d a b >>= fun b =>
      if a + ptSize ≠ 0 ∧ a + ptSize < dirEnd ∧ a + ptSize < end_ then
        exitDir d dirEnd end_ fuel (a + ptSize) b
      else pure b := by
  rw [exitDir, exitTable, bind_assoc]
  refine congrArg (Code.get >>= ·) (funext fun s => ?_)
  dsimp only
  split
  · rw [bind_assoc]
    refine congrArg (_ >>= ·) (funext fun pt => ?_)
    split
    · simp only [bind_assoc, pure_bind]
    · simp only [pure_bind]
  · rfl

/-- A table is freed, if there is one. -/
theorem exitTable_spec {b : Bool} (hF : Frames s D I role 0) (hS : Shell s I r role)
    (hd : (s.tree I r).dir (n / 512) = some d) : ∃ t role' b',
    exitTable d (n * ptSize) b s = some (.ok b', t) ∧
      Torn s t D I r role role' ((s.tree I r).sweep n (n + 1))
        (fun p => (s.tree I r).table n = some p) ∧
      (b' = true ↔ b = true ∧ (s.tree I r).table n ≠ none) := by
  have htab : (s.tree I r).table n = entry (s.word d (n % 512)) := by
    rw [tree_table rfl, hd]
    rfl
  unfold exitTable
  rw [Code.bind_ok (rfl : (Code.get : M Phys) s = _), pdx0_table]
  cases hpt : entry (s.word d (n % 512)) with
  | none =>
    rw [hpt] at htab
    simp only [entry_eq_none.1 hpt]
    refine ⟨s, role, false, rfl, (Torn.refl hF hS).congr ?_ fun p => ?_, by simp [htab]⟩
    · refine PtTree.ext rfl (funext fun m => ?_)
      change _ = if n ≤ m ∧ m < n + 1 then none else _
      split
      · obtain rfl : m = n := by omega
        exact htab
      · rfl
    · simp [htab]
  | some pt =>
    rw [hpt] at htab
    obtain ⟨hv, hpage⟩ := entry_eq_some.1 hpt
    obtain ⟨h1, h2, -, -, h5⟩ := hS.table n pt htab
    have hfree : pt ∉ s.free := fun hf => by simp [(hF.free pt).1 hf] at h1
    have hrun : (pde2page (s.word d (n % 512)) : M ℕ) s = some (.ok pt, s) := by
      unfold pde2page
      rw [hpage, Code.bind_ok (kaddr_run h2)]
      rfl
    rw [if_pos hv, Code.bind_ok hrun, if_pos h5]
    refine ⟨_, _, b, ?_, (hS.freeTable hF hd htab).congr rfl fun p => ?_, by simp [htab]⟩
    · rw [Code.bind_ok (freePages_run hfree)]
      rfl
    · rw [htab, Option.some.injEq]

/-- The tables of a directory that the range goes through. -/
theorem exitDir_spec {stop : ℕ} {b : Bool}
    (hstop : stop = min ((i + 1) * 512) (tablesEnd end_)) (hF : Frames s D I role 0)
    (hS : Shell s I r role) (hd : (s.tree I r).dir i = some d) (hn : n / 512 = i)
    (he : n * ptSize < end_) (hfuel : 512 ≤ fuel + n % 512) : ∃ t role' b',
    exitDir d (i * pdSize + pdSize) end_ fuel (n * ptSize) b s = some (.ok b', t) ∧
      Torn s t D I r role role' ((s.tree I r).sweep n stop)
        (fun p => ∃ m, n ≤ m ∧ m < stop ∧ (s.tree I r).table m = some p) ∧
      (b' = true ↔ b = true ∧ ∀ m ∈ Finset.Ico n stop, (s.tree I r).table m ≠ none) := by
  induction fuel generalizing n b s role with
  | zero => omega
  | succ fuel ih =>
    have hlast : n < stop := by
      rw [hstop]
      exact lt_min (by omega) (lt_tablesEnd.2 he)
    obtain ⟨t, role', b', hrun, hT, hb'⟩ := exitTable_spec (b := b) hF hS (hn ▸ hd)
    have hmul : n * ptSize + ptSize = (n + 1) * ptSize := by
      unfold ptSize pgSize
      omega
    have hnext : ((n + 1) * ptSize ≠ 0 ∧ (n + 1) * ptSize < i * pdSize + pdSize ∧
        (n + 1) * ptSize < end_) ↔ n + 1 < stop := by
      rw [hstop, lt_min_iff, lt_tablesEnd]
      unfold pdSize ptSize pgSize
      omega
    rw [exitDir_succ, Code.bind_ok hrun, hmul, if_congr hnext rfl rfl]
    have htab : ∀ m, n + 1 ≤ m → (t.tree I r).table m = (s.tree I r).table m := fun m hm => by
      rw [hT.tree]
      exact if_neg (by omega)
    have hsplit : (∀ m ∈ Finset.Ico n stop, (s.tree I r).table m ≠ none) ↔
        (s.tree I r).table n ≠ none ∧ ∀ m ∈ Finset.Ico (n + 1) stop,
          (t.tree I r).table m ≠ none := by
      simp only [Finset.mem_Ico]
      constructor
      · intro h
        refine ⟨h n ⟨le_rfl, hlast⟩, fun m hm => ?_⟩
        rw [htab m hm.1]
        exact h m ⟨by omega, hm.2⟩
      · rintro ⟨h0, h⟩ m hm
        by_cases e : m = n
        · exact e ▸ h0
        · rw [← htab m (by omega)]
          exact h m ⟨by omega, hm.2⟩
    by_cases hlt : n + 1 < stop
    · have hd' : (t.tree I r).dir i = some d := by
        rw [hT.tree]
        exact hd
      have he' : (n + 1) * ptSize < end_ := by
        rw [hstop] at hlt
        exact lt_tablesEnd.1 (lt_min_iff.1 hlt).2
      obtain ⟨u, role'', b'', hrun', hT', hb''⟩ := ih (b := b') hT.frames hT.shell hd' (by omega)
        he' (by omega)
      rw [if_pos hlt]
      refine ⟨u, role'', b'', hrun', (hT.trans hT').congr ?_ fun p => ?_, ?_⟩
      · rw [hT.tree]
        refine PtTree.ext rfl (funext fun m => ?_)
        change (if n + 1 ≤ m ∧ m < stop then none else if n ≤ m ∧ m < n + 1 then none else _) =
          if n ≤ m ∧ m < stop then none else _
        by_cases h1 : n + 1 ≤ m ∧ m < stop
        · rw [if_pos h1, if_pos (by omega)]
        · rw [if_neg h1]
          exact if_congr (by omega) rfl rfl
      · constructor
        · rintro (hp | ⟨m, h1, h2, hp⟩)
          · exact ⟨n, le_rfl, hlast, hp⟩
          · exact ⟨m, by omega, h2, (htab m h1).symm.trans hp⟩
        · rintro ⟨m, h1, h2, hp⟩
          by_cases e : m = n
          · exact .inl (e ▸ hp)
          · exact .inr ⟨m, by omega, h2, (htab m (by omega)).trans hp⟩
      · rw [hb'', hb', hsplit, and_assoc]
    · obtain rfl : stop = n + 1 := by omega
      rw [if_neg hlt]
      refine ⟨t, role', b', rfl, hT.congr rfl fun p => ?_, ?_⟩
      · constructor
        · intro hp
          exact ⟨n, le_rfl, hlast, hp⟩
        · rintro ⟨m, h1, h2, hp⟩
          obtain rfl : m = n := by omega
          exact hp
      · rw [hb', hsplit, Finset.Ico_self]
        simp

/-- What `exit_range` does about a level 0 directory. -/
def exitRegion (pgdir d1start d0start end_ : ℕ) : M Unit := do
  let s ← Code.get
  let pde1 := s.word pgdir (pdx1 d1start)
  if pteValid pde1 then do
    let pd0 ← pde2page pde1
    let freePd0 ← exitDir pd0 (d1start + pdSize) end_ 512 d0start true
    if freePd0 then do
      freePages pd0 1
      setWord pgdir (pdx1 d1start) 0
    else pure ()
  else pure ()

/-- **A directory.**  What the range goes through below it is freed, and it is, if nothing in the
range was missing. -/
theorem exitRegion_spec {stop : ℕ} (hI : i ∈ I) (hi : i < 2)
    (hstop : stop = min ((i + 1) * 512) (tablesEnd end_)) (hF : Frames s D I role 0)
    (hS : Shell s I r role) (hn : n / 512 = i) (he : n * ptSize < end_) : ∃ t role',
    exitRegion r (i * pdSize) (n * ptSize) end_ s = some (.ok (), t) ∧
      Torn s t D I r role role' ((s.tree I r).exit n stop) ((s.tree I r).Gives n stop) := by
  have hlast : n < stop := by
    rw [hstop]
    exact lt_min (by omega) (lt_tablesEnd.2 he)
  have hregion : ∀ m, n ≤ m → m < stop → m / 512 = i := fun m h1 h2 => by
    have := (lt_min_iff.1 (hstop ▸ h2)).1
    omega
  have hcov : ∀ i', (s.tree I r).Covered n stop i' ↔
      i' = i ∧ ∀ m ∈ Finset.Ico n stop, (s.tree I r).table m ≠ none := fun i' => by
    constructor
    · rintro ⟨⟨m, hm, rfl⟩, h⟩
      have e := hregion m (Finset.mem_Ico.1 hm).1 (Finset.mem_Ico.1 hm).2
      refine ⟨e, fun m' hm' => h m' hm' ?_⟩
      rw [hregion m' (Finset.mem_Ico.1 hm').1 (Finset.mem_Ico.1 hm').2, e]
    · rintro ⟨rfl, h⟩
      exact ⟨⟨n, Finset.mem_Ico.2 ⟨le_rfl, hlast⟩, hn⟩, fun m hm _ => h m hm⟩
  have hpdx : pdx1 (i * pdSize) = i := by
    rw [pdx1_eq]
    unfold pdSize ptSize pgSize
    omega
  have hdir : (s.tree I r).dir i = entry (s.word r i) := if_pos hI
  unfold exitRegion
  rw [Code.bind_ok (rfl : (Code.get : M Phys) s = _), hpdx]
  cases hd : entry (s.word r i) with
  | none =>
    rw [hd] at hdir
    have htab : ∀ m, n ≤ m → m < stop → (s.tree I r).table m = none := fun m h1 h2 => by
      rw [tree_table rfl, hregion m h1 h2, hdir]
      rfl
    have hno : ∀ i', ¬(s.tree I r).Covered n stop i' := fun i' h =>
      ((hcov i').1 h).2 n (Finset.mem_Ico.2 ⟨le_rfl, hlast⟩) (htab n le_rfl hlast)
    rw [if_neg (by simp [entry_eq_none.1 hd])]
    refine ⟨s, role, rfl, (Torn.refl hF hS).congr (PtTree.ext (funext fun i' => ?_)
      (funext fun m => ?_)) fun p => ?_⟩
    · exact (if_neg (hno i')).symm
    · change _ = if n ≤ m ∧ m < stop ∨ _ then none else _
      split
      · rename_i h
        obtain ⟨h1, h2⟩ := h.resolve_right (hno _)
        exact htab m h1 h2
      · rfl
    · refine ⟨False.elim, ?_⟩
      rintro (⟨m, h1, h2, hp⟩ | ⟨i', h, -⟩)
      · rw [htab m h1 h2] at hp
        cases hp
      · exact hno i' h
  | some d =>
    rw [hd] at hdir
    obtain ⟨hv, hpage⟩ := entry_eq_some.1 hd
    obtain ⟨g1, g2, -⟩ := hS.dir i d hdir
    have hrun : (pde2page (s.word r i) : M ℕ) s = some (.ok d, s) := by
      unfold pde2page
      rw [hpage, Code.bind_ok (kaddr_run g2)]
      rfl
    obtain ⟨t, role', b, hrun', hT, hb⟩ := exitDir_spec (b := true) hstop hF hS hdir hn he
      (Nat.le_add_right 512 _)
    rw [if_pos hv, Code.bind_ok hrun, Code.bind_ok hrun']
    have hb' : b = true ↔ (s.tree I r).Covered n stop i := by simp [hb, hcov]
    by_cases hcb : b = true
    · have hdir' : (t.tree I r).dir i = some d := by
        rw [hT.tree]
        exact hdir
      have hfree : d ∉ t.free := fun hf => by
        have := (hT.shell.dir i d hdir').1
        simp [(hT.frames.free d).1 hf] at this
      have hc := hb'.1 hcb
      have hiff : ∀ i', (s.tree I r).Covered n stop i' ↔ i' = i := fun i' =>
        ⟨fun h => ((hcov i').1 h).1, fun h => h ▸ hc⟩
      rw [if_pos hcb, Code.bind_ok (freePages_run hfree)]
      refine ⟨_, _, rfl, (hT.trans (hT.shell.freeDir hT.frames hdir')).congr ?_ fun p => ?_⟩
      · rw [hT.tree]
        refine PtTree.ext (funext fun i' => if_congr (hiff i').symm rfl rfl) (funext fun m => ?_)
        change (if m / 512 = i then none else if n ≤ m ∧ m < stop then none else _) =
          if n ≤ m ∧ m < stop ∨ _ then none else _
        rw [if_congr (or_congr_right (hiff (m / 512))) rfl rfl]
        by_cases hm : m / 512 = i
        · rw [if_pos hm, if_pos (.inr hm)]
        · rw [if_neg hm]
          exact if_congr (or_iff_left hm).symm rfl rfl
      · refine or_congr_right ⟨?_, ?_⟩
        · rintro rfl
          exact ⟨i, hc, hdir⟩
        · rintro ⟨i', h, hp⟩
          rw [(hiff i').1 h, hdir] at hp
          exact Option.some.inj hp
    · have hno : ∀ i', ¬(s.tree I r).Covered n stop i' := fun i' h =>
        hcb (hb'.2 (((hcov i').1 h).1 ▸ h))
      rw [if_neg hcb]
      refine ⟨t, role', rfl, hT.congr ?_ fun p => ?_⟩
      · refine PtTree.ext (funext fun i' => (if_neg (hno i')).symm) (funext fun m => ?_)
        exact if_congr (or_iff_left (hno _)).symm rfl rfl
      · refine (or_iff_left ?_).symm
        rintro ⟨i', h, -⟩
        exact hno i' h

theorem exitLoop_succ {a d1 : ℕ} : exitLoop r end_ (fuel + 1) d1 a =
    exitRegion r d1 a end_ >>= fun _ =>
      if d1 + pdSize ≠ 0 ∧ d1 + pdSize < end_ then
        exitLoop r end_ fuel (d1 + pdSize) (d1 + pdSize)
      else pure () := by
  rw [exitLoop, exitRegion, bind_assoc]
  refine congrArg (Code.get >>= ·) (funext fun s => ?_)
  dsimp only
  split
  · simp only [bind_assoc]
    refine congrArg (_ >>= ·) (funext fun pd0 => ?_)
    refine congrArg (_ >>= ·) (funext fun b => ?_)
    split
    · simp only [bind_assoc]
    · simp only [pure_bind]
  · simp only [pure_bind]

theorem exitLoop_spec (hI : ∀ i < 2, i ∈ I) (hu : end_ ≤ userTop) (hF : Frames s D I role 0)
    (hS : Shell s I r role) (hn : n / 512 = i) (he : n * ptSize < end_) (hfuel : 2 ≤ fuel + i) :
    ∃ t role', exitLoop r end_ fuel (i * pdSize) (n * ptSize) s = some (.ok (), t) ∧
      Torn s t D I r role role' ((s.tree I r).exit n (tablesEnd end_))
        ((s.tree I r).Gives n (tablesEnd end_)) := by
  induction fuel generalizing i n s role with
  | zero =>
    unfold ptSize pgSize userTop at *
    omega
  | succ fuel ih =>
    have hi : i < 2 := by
      unfold ptSize pgSize userTop at *
      omega
    obtain ⟨t, role', hrun, hT⟩ := exitRegion_spec (hI i hi) hi rfl hF hS hn he
    have hmul : i * pdSize + pdSize = (i + 1) * pdSize := by
      unfold pdSize ptSize pgSize
      omega
    have hnext : ((i + 1) * pdSize ≠ 0 ∧ (i + 1) * pdSize < end_) ↔
        (i + 1) * 512 < tablesEnd end_ := by
      rw [lt_tablesEnd]
      unfold pdSize ptSize pgSize
      omega
    rw [exitLoop_succ, Code.bind_ok hrun, hmul]
    by_cases hlt : (i + 1) * 512 < tablesEnd end_
    · have hstop : min ((i + 1) * 512) (tablesEnd end_) = (i + 1) * 512 := min_eq_left hlt.le
      rw [hstop] at hT
      have hstart : (i + 1) * pdSize = (i + 1) * 512 * ptSize := by
        unfold pdSize ptSize pgSize
        omega
      obtain ⟨u, role'', hrun', hT'⟩ := ih (i := i + 1) (n := (i + 1) * 512) hT.frames hT.shell
        (by omega) (lt_tablesEnd.1 hlt) (by omega)
      rw [← hstart] at hrun'
      rw [hT.tree] at hT'
      rw [if_pos (hnext.2 hlt)]
      exact ⟨u, role'', hrun', (hT.trans hT').congr
        (PtTree.exit_exit (by omega) (by omega) hlt.le)
        fun p => PtTree.gives_exit (by omega) (by omega) hlt.le⟩
    · have hstop : min ((i + 1) * 512) (tablesEnd end_) = tablesEnd end_ :=
        min_eq_right (not_lt.1 hlt)
      rw [hstop] at hT
      rw [if_neg fun h => hlt (hnext.1 h)]
      exact ⟨t, role', rfl, hT⟩

/-- **`exit_range`** does not fail, and gives back what it should. -/
theorem exitRange_spec (hI : ∀ i < 2, i ∈ I) (hs : start % pgSize = 0) (he : end_ % pgSize = 0)
    (hu : UserAccess start end_) (hF : Frames s D I role 0) (hS : Shell s I r role) :
    ∃ t role', exitRange r start end_ s = some (.ok (), t) ∧
      Torn s t D I r role role' ((s.tree I r).exit (start / ptSize) (tablesEnd end_))
        ((s.tree I r).Gives (start / ptSize) (tablesEnd end_)) := by
  unfold exitRange
  rw [Code.assert_bind ⟨hs, he⟩, Code.assert_bind hu]
  obtain ⟨-, hlt, htop⟩ := hu
  have h1 : roundDown start pdSize = start / ptSize / 512 * pdSize := by
    unfold roundDown pdSize ptSize pgSize
    omega
  have h2 : roundDown start ptSize = start / ptSize * ptSize := by
    unfold roundDown ptSize pgSize
    omega
  have h3 : start / ptSize * ptSize < end_ := by
    unfold ptSize pgSize
    omega
  obtain ⟨t, role', hrun, hT⟩ := exitLoop_spec (n := start / ptSize) hI htop hF hS rfl h3
    (Nat.le_add_right_of_le (by decide : 2 ≤ 512))
  rw [h1, h2]
  exact ⟨t, role', hrun, hT⟩

/-! ## An address space ends -/

/-- The role of page `p` when `r` is no page directory any more. -/
def Role.detach (r p : ℕ) : Role → Role
  | .root => if p = r then .other else .root
  | .dir r' i => if r' = r then .other else .dir r' i
  | .table r' i j => if r' = r then .other else .table r' i j
  | x => x

section
variable {y : Role}

@[simp] theorem detach_free : y.detach r p = .free ↔ y = .free := by
  cases y <;> simp [Role.detach] <;> split <;> simp

@[simp] theorem detach_user : y.detach r p = .user ↔ y = .user := by
  cases y <;> simp [Role.detach] <;> split <;> simp

theorem detach_root (h : p ≠ r) : y.detach r p = .root ↔ y = .root := by
  cases y <;> simp [Role.detach, h] <;> split <;> simp

theorem detach_dir {r' : ℕ} : y.detach r p = .dir r' i ↔ y = .dir r' i ∧ r' ≠ r := by
  cases y with
  | root =>
    simp only [Role.detach, reduceCtorEq, false_and, iff_false]
    split <;> simp
  | dir r₁ i₁ =>
    simp only [Role.detach, Role.dir.injEq]
    split
    · rename_i h
      simp only [reduceCtorEq, false_iff]
      rintro ⟨⟨rfl, -⟩, h'⟩
      exact h' h
    · rename_i h
      rw [Role.dir.injEq]
      exact ⟨fun e => ⟨e, e.1 ▸ h⟩, fun e => e.1⟩
  | table r₁ i₁ j₁ =>
    simp only [Role.detach, reduceCtorEq, false_and, iff_false]
    split <;> simp
  | _ => simp [Role.detach]

theorem detach_table {r' : ℕ} : y.detach r p = .table r' i j ↔ y = .table r' i j ∧ r' ≠ r := by
  cases y with
  | root =>
    simp only [Role.detach, reduceCtorEq, false_and, iff_false]
    split <;> simp
  | dir r₁ i₁ =>
    simp only [Role.detach, reduceCtorEq, false_and, iff_false]
    split <;> simp
  | table r₁ i₁ j₁ =>
    simp only [Role.detach, Role.table.injEq]
    split
    · rename_i h
      simp only [reduceCtorEq, false_iff]
      rintro ⟨⟨rfl, -⟩, h'⟩
      exact h' h
    · rename_i h
      rw [Role.table.injEq]
      exact ⟨fun e => ⟨e, e.1 ▸ h⟩, fun e => e.1⟩
  | _ => simp [Role.detach]

theorem detach_other (h : y ≠ .other) (h' : y.detach r p = .other) : y.Node := by
  cases y <;> simp_all [Role.detach, Role.Node]

end

/-- **A page directory that maps nothing** is no part of the memory any more. -/
theorem Frames.detach (h : Frames s D I role 0) (hr : r ∈ D)
    (hnone : ∀ z ∈ slots D I, z.1 = r → s.pte z = none) :
    Frames s (D.erase r) I (fun p => (role p).detach r p) 0 ∧
      Shell s I r fun p => (role p).detach r p := by
  have hmaps : ∀ p, s.maps (D.erase r) I p = s.maps D I p := fun p => by
    rw [Phys.maps, Phys.maps, refs, refs]
    congr 1
    ext ⟨r', i, j, k⟩
    rw [Finset.mem_filter, Finset.mem_filter, mem_slots, mem_slots, Finset.mem_erase]
    constructor
    · rintro ⟨⟨⟨-, h1⟩, h2⟩, h3⟩
      exact ⟨⟨h1, h2⟩, h3⟩
    · rintro ⟨⟨h1, h2⟩, h3⟩
      refine ⟨⟨⟨fun e => ?_, h1⟩, h2⟩, h3⟩
      rw [Phys.frame, hnone (r', i, j, k) (mem_slots.2 ⟨h1, h2⟩) e] at h3
      cases h3
  have hT : Tables s (D.erase r) I fun p => (role p).detach r p := by
    refine ⟨fun p => (h.free p).trans detach_free.symm, fun r' hr' => ?_,
      fun r' hr' i hi p => ?_, fun d r' i hd j p => ?_, fun pt r' i j hpt k hk p he => ?_,
      fun d r' i hd => ?_, fun pt r' i j hpt => ?_, fun p hp => ?_, h.small⟩
    · obtain ⟨hne, hr'⟩ := Finset.mem_erase.1 hr'
      exact (detach_root hne).2 (h.root r' hr')
    · obtain ⟨hne, hr'⟩ := Finset.mem_erase.1 hr'
      rw [h.dir r' hr' i hi p, detach_dir]
      exact ⟨fun e => ⟨e, hne⟩, fun e => e.1⟩
    · obtain ⟨hd, hne⟩ := detach_dir.1 hd
      rw [h.table d r' i hd j p, detach_table]
      exact ⟨fun e => ⟨e, hne⟩, fun e => e.1⟩
    · exact detach_user.2 (h.user pt r' i j (detach_table.1 hpt).1 k hk p he)
    · obtain ⟨hd, hne⟩ := detach_dir.1 hd
      obtain ⟨hr', hi⟩ := h.dirs d r' i hd
      exact ⟨Finset.mem_erase.2 ⟨hne, hr'⟩, hi⟩
    · obtain ⟨hpt, hne⟩ := detach_table.1 hpt
      obtain ⟨hj, d, hd⟩ := h.tables pt r' i j hpt
      exact ⟨hj, d, detach_dir.2 ⟨hd, hne⟩⟩
    · refine h.bound p fun e => hp ?_
      rw [e]
      rfl
  refine ⟨⟨hT, fun p hp => ?_, fun p hp => h.ref_free p (detach_free.1 hp)⟩, ?_⟩
  · rw [hmaps]
    exact h.ref_user p (detach_user.1 hp)
  have hroot := h.root r hr
  have hdir : ∀ i d, (s.tree I r).dir i = some d → i ∈ I ∧ role d = .dir r i := fun i d hd => by
    obtain ⟨hi, he⟩ := tree_dir_some hd
    exact ⟨hi, (h.dir r hr i hi d).1 he⟩
  have htab : ∀ n p, (s.tree I r).table n = some p →
      n / 512 ∈ I ∧ role p = .table r (n / 512) (n % 512) := fun n p hp => by
    change (if n / 512 ∈ I then _ else none) = some p at hp
    split at hp
    · rename_i hi
      exact ⟨hi, (h.tableAt_iff hr hi).1 hp⟩
    · cases hp
  refine ⟨?_, h.lt hroot (by simp), fun i d hd => ?_, fun i i' d hd hd' => ?_, fun n p hp => ?_,
    fun n n' p hp hp' => ?_⟩
  · rw [hroot]
    exact if_pos rfl
  · have hd := (hdir i d hd).2
    refine ⟨?_, h.lt hd (by simp), role_ne hd hroot (by simp)⟩
    rw [hd]
    exact if_pos rfl
  · have e := (hdir i d hd).2.symm.trans (hdir i' d hd').2
    rw [Role.dir.injEq] at e
    exact e.2
  · obtain ⟨hi, hp⟩ := htab n p hp
    refine ⟨?_, h.lt hp (by simp), role_ne hp hroot (by simp), fun i hd => ?_, ?_⟩
    · rw [hp]
      exact if_pos rfl
    · cases hp.symm.trans (hdir i p hd).2
    · rw [tableEmpty, List.all_eq_true]
      intro k hk
      have hz := hnone (r, n / 512, n % 512, k) (h.mem_slots hp (List.mem_range.1 hk)) rfl
      rw [h.pte_eq hp, leaf] at hz
      split at hz
      · cases hz
      · rename_i hv
        simpa using hv
  · have e := (htab n p hp).2.symm.trans (htab n' p hp').2
    rw [Role.table.injEq] at e
    omega

end Ucore.Pmm
