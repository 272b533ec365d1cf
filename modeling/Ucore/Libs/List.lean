/-
  `libs/list.h`: the kernel's circular doubly linked lists.

  A `list_entry_t` is a node of a link memory; the operations are the assignments of the source,
  in the same order.  The rules say what each of them does to the sequence of a list.
-/
import Ucore.Lib.Intrusive

namespace Ucore

open Intrusive

section
variable {α : Type*} [DecidableEq α]

/-- `elm->prev = elm->next = elm` -/
def listInit (L : Links α) (elm : α) : Links α := (L.setNext elm elm).setPrev elm elm

/-- `__list_add`: `prev->next = next->prev = elm; elm->next = next; elm->prev = prev` -/
def listAddBetween (L : Links α) (elm prev next : α) : Links α :=
  (((L.setPrev next elm).setNext prev elm).setNext elm next).setPrev elm prev

/-- `__list_del`: `prev->next = next; next->prev = prev` -/
def listDelBetween (L : Links α) (prev next : α) : Links α :=
  (L.setNext prev next).setPrev next prev

def listAddBefore (L : Links α) (listelm elm : α) : Links α :=
  listAddBetween L elm (L.prev listelm) listelm

def listAddAfter (L : Links α) (listelm elm : α) : Links α :=
  listAddBetween L elm listelm (L.next listelm)

def listAdd (L : Links α) (listelm elm : α) : Links α := listAddAfter L listelm elm

def listDel (L : Links α) (listelm : α) : Links α :=
  listDelBetween L (L.prev listelm) (L.next listelm)

def listDelInit (L : Links α) (listelm : α) : Links α := listInit (listDel L listelm) listelm

def listEmpty (L : Links α) (list : α) : Bool := L.next list = list

def listNext (L : Links α) (listelm : α) : α := L.next listelm

def listPrev (L : Links α) (listelm : α) : α := L.prev listelm

/-! ## Rules -/

variable {L : Links α} {h e le : α} {xs ys : List α}

theorem circ_listInit (L : Links α) (h : α) : Circ (listInit L h) h [] := Circ.self L h

/-- Adding before the first node of `ys` (or before the head, at the tail). -/
theorem circ_listAddBefore (c : Circ L h (xs ++ ys)) (he : e ∉ h :: (xs ++ ys))
    (hle : le = (ys ++ [h]).head (by simp)) : Circ (listAddBefore L le e) h (xs ++ e :: ys) :=
  c.insert he (hle ▸ (c.cut xs ys).2) hle

/-- Adding after the last node of `xs` (or after the head, at the front). -/
theorem circ_listAddAfter (c : Circ L h (xs ++ ys)) (he : e ∉ h :: (xs ++ ys))
    (hle : le = (h :: xs).getLast (by simp)) : Circ (listAddAfter L le e) h (xs ++ e :: ys) :=
  c.insert he hle (hle ▸ (c.cut xs ys).1)

theorem circ_listAdd_front (c : Circ L h xs) (he : e ∉ h :: xs) :
    Circ (listAdd L h e) h (e :: xs) := by
  have c' : Circ L h ([] ++ xs) := c
  exact circ_listAddAfter c' he rfl

theorem circ_listAddBefore_tail (c : Circ L h xs) (he : e ∉ h :: xs) :
    Circ (listAddBefore L h e) h (xs ++ [e]) := by
  have c' : Circ L h (xs ++ []) := by simpa using c
  exact circ_listAddBefore c' (by simpa using he) rfl

theorem circ_listDel (c : Circ L h (xs ++ e :: ys)) : Circ (listDel L e) h (xs ++ ys) := c.remove

theorem listEmpty_iff (c : Circ L h xs) : listEmpty L h = true ↔ xs = [] := by
  simp [listEmpty, c.next_head_eq_iff]

/-- A node linked to itself is not on any list. -/
theorem listEmpty_of_mem (c : Circ L h xs) (he : e ∈ xs) : listEmpty L e = false := by
  obtain ⟨as, bs, rfl⟩ := List.append_of_mem he
  have hn := c.next_mid
  have hnd := c.nodup
  simp only [listEmpty, decide_eq_false_iff_not]
  rw [hn]
  rintro hh
  cases bs with
  | nil =>
    simp only [List.nil_append, List.head_cons] at hh; subst hh
    simp at hnd
  | cons b bs =>
    simp only [List.cons_append, List.head_cons] at hh; subst hh
    simp [List.nodup_append] at hnd

theorem listAddBefore_frame {x : α} (hx : x ≠ e) (hp : x ≠ L.prev le) (hn : x ≠ le) :
    (listAddBefore L le e).next x = L.next x ∧ (listAddBefore L le e).prev x = L.prev x :=
  Circ.link_frame hx hp hn

theorem listAddAfter_frame {x : α} (hx : x ≠ e) (hp : x ≠ le) (hn : x ≠ L.next le) :
    (listAddAfter L le e).next x = L.next x ∧ (listAddAfter L le e).prev x = L.prev x :=
  Circ.link_frame hx hp hn

theorem listDel_frame {x : α} (hp : x ≠ L.prev e) (hn : x ≠ L.next e) :
    (listDel L e).next x = L.next x ∧ (listDel L e).prev x = L.prev x :=
  Circ.unlink_frame hp hn

/-- Deleting a node of a list leaves the nodes outside the list alone. -/
theorem listDel_outside {x : α} (c : Circ L h xs) (he : e ∈ xs) (hx : x ∉ h :: xs) :
    (listDel L e).next x = L.next x ∧ (listDel L e).prev x = L.prev x :=
  listDel_frame (fun hp => hx (hp ▸ c.prev_mem (List.mem_cons_of_mem _ he)))
    fun hn => hx (hn ▸ c.next_mem (List.mem_cons_of_mem _ he))

/-- So does deleting and re-initialising it. -/
theorem listDelInit_outside {x : α} (c : Circ L h xs) (he : e ∈ xs) (hx : x ∉ h :: xs) :
    (listDelInit L e).next x = L.next x ∧ (listDelInit L e).prev x = L.prev x := by
  have hxe : x ≠ e := by rintro rfl; exact hx (List.mem_cons_of_mem _ he)
  simpa [listDelInit, listInit, hxe] using listDel_outside c he hx

theorem circ_listDelInit (c : Circ L h (xs ++ e :: ys)) : Circ (listDelInit L e) h (xs ++ ys) := by
  refine (circ_listDel c).congr (fun x hx => ?_) fun x hx => ?_
  all_goals
    have hne : x ≠ e := by
      rintro rfl
      have hnd := c.nodup
      rw [← List.cons_append, List.nodup_middle, List.nodup_cons] at hnd
      exact hnd.1 hx
    simp [listDelInit, listInit, hne]

theorem listEmpty_listDelInit : listEmpty (listDelInit L e) e = true := by
  simp [listEmpty, listDelInit, listInit]

/-- Adding a node at the tail leaves the nodes outside the list alone. -/
theorem listAddBefore_outside {x : α} (c : Circ L h xs) (hx : x ∉ h :: xs) (hxe : x ≠ e) :
    (listAddBefore L h e).next x = L.next x ∧ (listAddBefore L h e).prev x = L.prev x :=
  listAddBefore_frame hxe (fun hp => hx (hp ▸ c.prev_mem (by simp))) (by rintro rfl; simp at hx)

theorem listAdd_outside {x : α} (c : Circ L h xs) (hx : x ∉ h :: xs) (hxe : x ≠ e) :
    (listAdd L h e).next x = L.next x ∧ (listAdd L h e).prev x = L.prev x :=
  listAddAfter_frame hxe (by rintro rfl; simp at hx) fun hn => hx (hn ▸ c.next_mem (by simp))

/-- Adding a list entry leaves the other lists alone. -/
theorem circ_listAdd_other {h' : α} (c : Circ L h xs) (c' : Circ L h' ys)
    (hd : ∀ x ∈ h' :: ys, x ∉ h :: xs ∧ x ≠ e) : Circ (listAdd L h e) h' ys :=
  c'.congr (fun x hx => (listAdd_outside c (hd x hx).1 (hd x hx).2).1)
    fun x hx => (listAdd_outside c (hd x hx).1 (hd x hx).2).2

/-- Deleting a list entry leaves the other lists alone. -/
theorem circ_listDel_other {h' : α} (c : Circ L h xs) (he : e ∈ xs) (c' : Circ L h' ys)
    (hd : ∀ x ∈ h' :: ys, x ∉ h :: xs) : Circ (listDel L e) h' ys :=
  c'.congr (fun x hx => (listDel_outside c he (hd x hx)).1)
    fun x hx => (listDel_outside c he (hd x hx)).2

/-- Initialising other list heads leaves an empty list empty. -/
theorem circ_foldl_listInit {f : ℕ → α} (hf : Function.Injective f) :
    ∀ (is : List ℕ) (L : Links α) (h : α), (∀ i, f i ≠ h) →
      Circ L h [] → Circ (is.foldl (fun L i => listInit L (f i)) L) h []
  | [], _, _, _, c => c
  | i :: is, L, h, hh, c => by
    refine circ_foldl_listInit hf is _ h hh (c.congr (fun x hx => ?_) fun x hx => ?_)
    all_goals
      obtain rfl : x = h := by simpa using hx
      simp [listInit, (hh i).symm]

/-- The heads of a table of lists, once initialised, are empty lists. -/
theorem circ_foldl_listInit_mem {f : ℕ → α} (hf : Function.Injective f) {i : ℕ} (is : List ℕ)
    (L : Links α) (hi : i ∈ is) : Circ (is.foldl (fun L i => listInit L (f i)) L) (f i) [] := by
  -- bucket `i` is initialised once or more, and then left alone
  have key : ∀ (is : List ℕ) (L : Links α), (i ∈ is ∨ Circ L (f i) []) →
      Circ (is.foldl (fun L i => listInit L (f i)) L) (f i) [] := by
    intro is
    induction is with
    | nil => intro L h; simpa using h
    | cons j is ih =>
      intro L h
      refine ih _ ?_
      by_cases hij : j = i
      · subst hij; exact Or.inr (circ_listInit L _)
      · have hne : f i ≠ f j := fun he => hij (hf he).symm
        rcases h with h | h
        · exact Or.inl (by simpa [Ne.symm hij] using h)
        · refine Or.inr (h.congr (fun x hx => ?_) fun x hx => ?_)
          all_goals
            obtain rfl : x = f i := by simpa using hx
            simp [listInit, hne]
  exact key _ _ (Or.inl hi)

/-- The nodes of a list from which one has been taken out. -/
theorem mem_erase_append {β : Type*} {as bs : List β} {q x : β} (hnd : (as ++ q :: bs).Nodup) :
    x ∈ as ++ bs ↔ x ∈ as ++ q :: bs ∧ x ≠ q := by
  rw [List.nodup_middle, List.nodup_cons] at hnd
  simp only [List.mem_append, List.mem_cons] at hnd ⊢
  constructor
  · intro hx; exact ⟨by tauto, by rintro rfl; exact hnd.1 hx⟩
  · rintro ⟨hx | rfl | hx, hne⟩
    exacts [Or.inl hx, absurd rfl hne, Or.inr hx]

/-- The nodes that `while ((le = list_next(le)) != list)` visits, at most `k` of them; the loop has
    to leave the links alone. -/
def listNodes (L : Links α) (list : α) : ℕ → α → Option (List α)
  | 0, _ => none
  | k + 1, le =>
    if listNext L le = list then some []
    else (listNodes L list k (listNext L le)).map fun xs => listNext L le :: xs

theorem listNodes_seg : ∀ {xs : List α} {a : α} {k : ℕ}, Seg L a xs h → h ∉ xs → xs.length < k →
    listNodes L h k a = some xs
  | [], a, k + 1, s, _, _ => by simp [listNodes, listNext, s.1]
  | x :: xs, a, k + 1, s, hx, hk => by
    have hne : x ≠ h := by rintro rfl; simp at hx
    have ih := listNodes_seg (k := k) s.2.2 (fun hm => hx (by simp [hm])) (by simpa using hk)
    simp [listNodes, listNext, s.1, hne, ih]

/-- **The loop** visits the nodes of the list. -/
theorem listNodes_circ {k : ℕ} (c : Circ L h xs) (hk : xs.length < k) :
    listNodes L h k h = some xs := listNodes_seg c.seg c.head_notMem hk

end

end Ucore
