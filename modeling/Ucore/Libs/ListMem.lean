/-
  `libs/list.h` on lists in memory: a `list_entry_t` is 16 bytes, `prev` before `next`.

  The operations are those of `Libs.List` on the words of the nodes, as long as nodes do not overlap
  (`Nodes`).  `Rings` are several lists without a common node:

  * `Rings.add`, `Rings.del`, `Rings.init`: what the operations do to them;
  * `Rings.congr`, `Rings.add_frame`, `Rings.del_frame`: they depend on, and change, no bytes but
    those of their nodes.
-/
import Ucore.Lib.Bytes
import Ucore.Libs.List

namespace Ucore

open Intrusive

/-- The links of the nodes in memory. -/
def linksOf (m : Bytes) : Links ℕ := ⟨fun a => m.word 8 (a + 8), fun a => m.word 8 a⟩

def memSetNext (m : Bytes) (a b : ℕ) : Bytes := m.setWord 8 (a + 8) b

def memSetPrev (m : Bytes) (a b : ℕ) : Bytes := m.setWord 8 a b

/-- `list_init` -/
def memListInit (m : Bytes) (elm : ℕ) : Bytes := memSetPrev (memSetNext m elm elm) elm elm

/-- `__list_add` -/
def memListAddBetween (m : Bytes) (elm prev next : ℕ) : Bytes :=
  memSetPrev (memSetNext (memSetNext (memSetPrev m next elm) prev elm) elm next) elm prev

/-- `list_add` -/
def memListAdd (m : Bytes) (listelm elm : ℕ) : Bytes :=
  memListAddBetween m elm listelm ((linksOf m).next listelm)

/-- `__list_del` -/
def memListDelBetween (m : Bytes) (prev next : ℕ) : Bytes :=
  memSetPrev (memSetNext m prev next) next prev

/-- `list_del` -/
def memListDel (m : Bytes) (listelm : ℕ) : Bytes :=
  memListDelBetween m ((linksOf m).prev listelm) ((linksOf m).next listelm)

/-! ## Nodes -/

/-- Addresses of nodes: pointers, and no two of the nodes overlap. -/
structure Nodes (N : Set ℕ) : Prop where
  apart : ∀ a ∈ N, ∀ b ∈ N, a ≠ b → a + 16 ≤ b ∨ b + 16 ≤ a
  fits : ∀ a ∈ N, a < 2 ^ 64

/-- The links of the nodes are the same. -/
def Agree (N : Set ℕ) (L L' : Links ℕ) : Prop :=
  ∀ a ∈ N, L'.next a = L.next a ∧ L'.prev a = L.prev a

/-- A byte that belongs to none of the nodes. -/
def Off (ns : List ℕ) (j : ℕ) : Prop := ∀ x ∈ ns, j < x ∨ x + 16 ≤ j

variable {N : Set ℕ} {L : Links ℕ} {m m' : Bytes} {a b e h j : ℕ} {xs ys : List ℕ}

theorem Agree.refl (N : Set ℕ) (L : Links ℕ) : Agree N L L := fun _ _ => ⟨rfl, rfl⟩

theorem Agree.setNext (hN : Nodes N) (hL : Agree N L (linksOf m)) (ha : a ∈ N) (hb : b ∈ N) :
    Agree N (L.setNext a b) (linksOf (memSetNext m a b)) := by
  intro x hx
  have hfit := hN.fits b hb
  rw [Links.setNext_next, Links.setNext_prev]
  constructor
  · by_cases hxa : x = a
    · subst hxa
      rw [if_pos rfl]
      refine Bytes.word_setWord.trans (Nat.mod_eq_of_lt ?_)
      omega
    · rw [if_neg hxa, ← (hL x hx).1]
      have := hN.apart x hx a ha hxa
      exact Bytes.word_copy_of_disjoint (by omega)
  · rw [← (hL x hx).2]
    refine Bytes.word_copy_of_disjoint ?_
    by_cases hxa : x = a
    · omega
    · have := hN.apart x hx a ha hxa
      omega

theorem Agree.setPrev (hN : Nodes N) (hL : Agree N L (linksOf m)) (ha : a ∈ N) (hb : b ∈ N) :
    Agree N (L.setPrev a b) (linksOf (memSetPrev m a b)) := by
  intro x hx
  have hfit := hN.fits b hb
  rw [Links.setPrev_next, Links.setPrev_prev]
  constructor
  · rw [← (hL x hx).1]
    refine Bytes.word_copy_of_disjoint ?_
    by_cases hxa : x = a
    · omega
    · have := hN.apart x hx a ha hxa
      omega
  · by_cases hxa : x = a
    · subst hxa
      rw [if_pos rfl]
      refine Bytes.word_setWord.trans (Nat.mod_eq_of_lt ?_)
      omega
    · rw [if_neg hxa, ← (hL x hx).2]
      have := hN.apart x hx a ha hxa
      exact Bytes.word_copy_of_disjoint (by omega)

theorem agree_memListInit (hN : Nodes N) (hh : h ∈ N) :
    Agree N (listInit (linksOf m) h) (linksOf (memListInit m h)) :=
  Agree.setPrev hN (Agree.setNext hN (Agree.refl N (linksOf m)) hh hh) hh hh

theorem agree_memListAdd (hN : Nodes N) (hh : h ∈ N) (hn : (linksOf m).next h ∈ N) (he : e ∈ N) :
    Agree N (listAdd (linksOf m) h e) (linksOf (memListAdd m h e)) := by
  unfold memListAdd memListAddBetween listAdd listAddAfter listAddBetween
  generalize hnext : (linksOf m).next h = n at hn
  have h1 := Agree.setPrev hN (Agree.refl N (linksOf m)) hn he
  have h2 := Agree.setNext hN h1 hh he
  exact Agree.setPrev hN (Agree.setNext hN h2 he hn) he hh

theorem agree_memListDel (hN : Nodes N) (hp : (linksOf m).prev e ∈ N)
    (hn : (linksOf m).next e ∈ N) :
    Agree N (listDel (linksOf m) e) (linksOf (memListDel m e)) := by
  unfold memListDel memListDelBetween listDel listDelBetween
  generalize hprev : (linksOf m).prev e = p at hp
  generalize hnext : (linksOf m).next e = n at hn
  exact Agree.setPrev hN (Agree.setNext hN (Agree.refl N (linksOf m)) hp hn) hn hp

/-- A list is one of all memories with its links. -/
theorem Agree.circ {L' : Links ℕ} (hL : Agree N L L') (c : Circ L h xs)
    (hx : ∀ x ∈ h :: xs, x ∈ N) :
    Circ L' h xs :=
  c.congr (fun x hm => (hL x (hx x hm)).1) fun x hm => (hL x (hx x hm)).2

theorem memSetNext_of_off (hj : j < a ∨ a + 16 ≤ j) : memSetNext m a b j = m j :=
  Bytes.setWord_of_not_mem (by omega)

theorem memSetPrev_of_off (hj : j < a ∨ a + 16 ≤ j) : memSetPrev m a b j = m j :=
  Bytes.setWord_of_not_mem (by omega)

theorem memListInit_of_off (hj : j < h ∨ h + 16 ≤ j) : memListInit m h j = m j := by
  rw [memListInit, memSetPrev_of_off hj, memSetNext_of_off hj]

theorem memListAdd_of_off (hj : Off [e, h, (linksOf m).next h] j) : memListAdd m h e j = m j := by
  have he := hj e (by simp)
  have hh := hj h (by simp)
  have hn := hj ((linksOf m).next h) (by simp)
  rw [memListAdd, memListAddBetween, memSetPrev_of_off he, memSetNext_of_off he,
    memSetNext_of_off hh, memSetPrev_of_off hn]

theorem memListDel_of_off (hj : Off [(linksOf m).prev e, (linksOf m).next e] j) :
    memListDel m e j = m j := by
  have hp := hj ((linksOf m).prev e) (by simp)
  have hn := hj ((linksOf m).next e) (by simp)
  rw [memListDel, memListDelBetween, memSetPrev_of_off hn, memSetNext_of_off hp]

/-! ## Several lists -/

/-- The lists with the heads `hd`: their nodes are in `N`, and no node is on two lists. -/
structure Rings {ι : Type*} (N : Set ℕ) (hd : ι → ℕ) (m : Bytes) (F : ι → List ℕ) : Prop where
  circ : ∀ i, Circ (linksOf m) (hd i) (F i)
  mem : ∀ i, ∀ x ∈ hd i :: F i, x ∈ N
  apart : ∀ i j, i ≠ j → ∀ x ∈ hd i :: F i, x ∉ hd j :: F j

namespace Rings

variable {ι : Type*} {hd : ι → ℕ} {F : ι → List ℕ} {i : ι}

/-- Lists do not depend on what is not in their nodes. -/
theorem congr (hR : Rings N hd m F)
    (hm : ∀ i, ∀ x ∈ hd i :: F i, ∀ k < 16, m' (x + k) = m (x + k)) : Rings N hd m' F := by
  refine ⟨fun i => (hR.circ i).congr (fun x hx => ?_) fun x hx => ?_, hR.mem, hR.apart⟩
  · refine Bytes.word_congr fun k hk => ?_
    rw [Nat.add_assoc]
    exact hm i x hx (8 + k) (by omega)
  · exact Bytes.word_congr fun k hk => hm i x hx k (by omega)

section
variable [DecidableEq ι]

/-- **A node is put in front of a list.** -/
theorem add (hR : Rings N hd m F) (hN : Nodes N) (he : e ∈ N) (hn : ∀ j, e ∉ hd j :: F j) (i : ι) :
    Rings N hd (memListAdd m (hd i) e) (Function.update F i (e :: F i)) := by
  have hnext := hR.mem i _ ((hR.circ i).next_mem (x := hd i) (by simp))
  have hag := agree_memListAdd hN (hR.mem i _ (by simp)) hnext he
  have hmem : ∀ j, ∀ x ∈ hd j :: Function.update F i (e :: F i) j,
      x ∈ hd j :: F j ∨ x = e ∧ j = i := fun j x hx => by
    by_cases hji : j = i
    · subst hji
      rw [Function.update_self] at hx
      simp only [List.mem_cons] at hx ⊢
      tauto
    · rw [Function.update_of_ne hji] at hx
      exact .inl hx
  refine ⟨fun j => ?_, fun j x hx => ?_, fun j k hjk x hx hx' => ?_⟩
  · by_cases hji : j = i
    · subst hji
      rw [Function.update_self]
      refine hag.circ (circ_listAdd_front (hR.circ j) (hn j)) fun x hx => ?_
      simp only [List.mem_cons] at hx
      obtain rfl | rfl | hx := hx
      · exact hR.mem j _ (by simp)
      · exact he
      · exact hR.mem j _ (by simp [hx])
    · rw [Function.update_of_ne hji]
      refine hag.circ (circ_listAdd_other (hR.circ i) (hR.circ j) fun x hx => ⟨?_, ?_⟩)
        (hR.mem j)
      · exact hR.apart j i hji x hx
      · exact fun hxe => hn j (hxe ▸ hx)
  · obtain hx | ⟨rfl, -⟩ := hmem j x hx
    · exact hR.mem j x hx
    · exact he
  · obtain hxj | ⟨hxe, hji⟩ := hmem j x hx <;> obtain hxk | ⟨hxe', hki⟩ := hmem k x hx'
    · exact hR.apart j k hjk x hxj hxk
    · exact hn j (hxe' ▸ hxj)
    · exact hn k (hxe ▸ hxk)
    · exact hjk (hji.trans hki.symm)

/-- **A node is taken out of its list.** -/
theorem del (hR : Rings N hd m F) (hN : Nodes N) (hF : F i = xs ++ e :: ys) :
    Rings N hd (memListDel m e) (Function.update F i (xs ++ ys)) := by
  have heF : e ∈ hd i :: F i := by simp [hF]
  have hag := agree_memListDel hN (hR.mem i _ ((hR.circ i).prev_mem heF))
    (hR.mem i _ ((hR.circ i).next_mem heF))
  have hci := hR.circ i
  rw [hF] at hci
  have hmem : ∀ j, ∀ x ∈ hd j :: Function.update F i (xs ++ ys) j, x ∈ hd j :: F j :=
    fun j x hx => by
      by_cases hji : j = i
      · subst hji
        rw [Function.update_self] at hx
        rw [hF]
        simp only [List.mem_cons, List.mem_append] at hx ⊢
        tauto
      · rwa [Function.update_of_ne hji] at hx
  refine ⟨fun j => ?_, fun j x hx => hR.mem j x (hmem j x hx), fun j k hjk x hx hx' =>
    hR.apart j k hjk x (hmem j x hx) (hmem k x hx')⟩
  by_cases hji : j = i
  · subst hji
    rw [Function.update_self]
    refine hag.circ (circ_listDel hci) fun x hx => hR.mem j x ?_
    rw [hF]
    simp only [List.mem_cons, List.mem_append] at hx ⊢
    tauto
  · rw [Function.update_of_ne hji]
    refine hag.circ (circ_listDel_other (hR.circ i) (by simp [hF]) (hR.circ j) fun x hx =>
      hR.apart j i hji x hx) (hR.mem j)

end

theorem add_frame (hR : Rings N hd m F) (i : ι) (hj : ∀ k, Off (hd k :: F k) j)
    (he : j < e ∨ e + 16 ≤ j) : memListAdd m (hd i) e j = m j := by
  refine memListAdd_of_off fun x hx => ?_
  simp only [List.mem_cons, List.not_mem_nil, or_false] at hx
  obtain rfl | rfl | rfl := hx
  · exact he
  · exact hj i _ (by simp)
  · exact hj i _ ((hR.circ i).next_mem (by simp))

theorem del_frame (hR : Rings N hd m F) (he : e ∈ F i) (hj : ∀ k, Off (hd k :: F k) j) :
    memListDel m e j = m j := by
  have heF : e ∈ hd i :: F i := List.mem_cons_of_mem _ he
  refine memListDel_of_off fun x hx => ?_
  simp only [List.mem_cons, List.not_mem_nil, or_false] at hx
  obtain rfl | rfl := hx
  · exact hj i _ ((hR.circ i).prev_mem heF)
  · exact hj i _ ((hR.circ i).next_mem heF)

end Rings

end Ucore
