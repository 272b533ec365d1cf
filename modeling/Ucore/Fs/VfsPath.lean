/-
  How `get_device` reads a path.

  * `Interprets`: the four forms of a path, with where the lookup starts and what is left of it;
  * `interprets_total`, `Interprets.unique`: a path has one form;
  * `scanLoop_device`, …: what the loop of `get_device` finds in each form.
-/
import Ucore.Fs.Vfs
import Mathlib.Data.List.TakeWhile

namespace Ucore

namespace Vfs

/-- Where a lookup starts: the file system of a device, or the device; the boot file system; the
    root of the file system of the working directory; the working directory. -/
inductive Start where
  | device (name : List UInt8)
  | boot
  | root
  | cwd

def dropSlashes (path : List UInt8) : List UInt8 := path.dropWhile (· = chSlash)

/-- **How a path is read**: `device:path`, `/path`, `:path` or `path`. -/
inductive Interprets : List UInt8 → Start → List UInt8 → Prop
  | device {name rest : List UInt8} : name ≠ [] → chColon ∉ name → chSlash ∉ name →
      Interprets (name ++ chColon :: rest) (.device name) (dropSlashes rest)
  | boot {rest : List UInt8} : Interprets (chSlash :: rest) .boot (dropSlashes rest)
  | root {rest : List UInt8} : Interprets (chColon :: rest) .root (dropSlashes rest)
  | cwd {path : List UInt8} : path.head? ≠ some chSlash →
      (∀ name rest, path = name ++ chColon :: rest → chSlash ∈ name) → Interprets path .cwd path

/-- The character ends the loop of `get_device`. -/
def Special (c : UInt8) : Prop := c = chColon ∨ c = chSlash

instance : DecidablePred Special := fun _ => inferInstanceAs (Decidable (_ ∨ _))

variable {path name rest l : List UInt8} {start : Start} {c : UInt8} {i : ℤ} {k : ℕ}

/-! ## The forms -/

/-- The characters in front of the first colon or slash. -/
theorem exists_special (path : List UInt8) :
    (∀ c ∈ path, ¬Special c) ∨
      ∃ name c rest, path = name ++ c :: rest ∧ Special c ∧ ∀ c ∈ name, ¬Special c := by
  induction path with
  | nil => exact .inl fun c hc => by cases hc
  | cons c path ih =>
    by_cases hc : Special c
    · exact .inr ⟨[], c, path, rfl, hc, fun c hc => by cases hc⟩
    · rcases ih with h | ⟨name, d, rest, rfl, hd, h⟩
      · exact .inl (List.forall_mem_cons.2 ⟨hc, h⟩)
      · exact .inr ⟨c :: name, d, rest, rfl, hd, List.forall_mem_cons.2 ⟨hc, h⟩⟩

theorem interprets_total (path : List UInt8) : ∃ start rest, Interprets path start rest := by
  rcases exists_special path with h | ⟨name, c, rest, rfl, rfl | rfl, h⟩
  · refine ⟨.cwd, path, .cwd (fun hs => ?_) fun name rest he => ?_⟩
    · exact h _ (List.mem_of_mem_head? hs) (.inr rfl)
    · exact absurd (.inl rfl) (h chColon (by simp [he]))
  · cases name with
    | nil => exact ⟨.root, _, .root⟩
    | cons d name =>
      exact ⟨_, _, .device (List.cons_ne_nil d name) (fun hm => h _ hm (.inl rfl))
        fun hm => h _ hm (.inr rfl)⟩
  · cases name with
    | nil => exact ⟨.boot, _, .boot⟩
    | cons d name =>
      refine ⟨.cwd, _, .cwd (fun hs => ?_) fun name' rest' he => ?_⟩
      · rw [List.cons_append, List.head?_cons, Option.some.injEq] at hs
        exact h d (List.mem_cons_self ..) (.inr hs)
      · rcases List.append_eq_append_iff.1 he with ⟨m, rfl, hm⟩ | ⟨m, hm, hm'⟩
        · cases m with
          | nil =>
            rw [List.nil_append] at hm
            cases hm
          | cons c m =>
            rw [List.cons_append] at hm
            cases hm
            simp
        · cases m with
          | nil =>
            rw [List.nil_append] at hm'
            cases hm'
          | cons c m =>
            rw [List.cons_append] at hm'
            cases hm'
            exact absurd (.inl rfl) (h chColon (by simp [hm]))

/-- What is left of a path does not start with a slash. -/
theorem Interprets.head?_ne (h : Interprets path start rest) : rest.head? ≠ some chSlash := by
  have hdrop : ∀ l : List UInt8, (dropSlashes l).head? ≠ some chSlash := fun l hl => by
    have h := List.head?_dropWhile_not (· = chSlash) l
    rw [dropSlashes] at hl
    rw [hl] at h
    simp at h
  cases h with
  | device => exact hdrop _
  | boot => exact hdrop _
  | root => exact hdrop _
  | cwd hs _ => exact hs

/-! ## The string in the buffer -/

theorem takeWhile_drop {p : UInt8 → Bool} : ∀ {name l : List UInt8}, l.takeWhile p = name ++ rest →
    (l.drop name.length).takeWhile p = rest
  | [], _, h => h
  | _ :: _, [], h => by cases h
  | c :: name, d :: l, h => by
    rw [List.takeWhile_cons, List.cons_append] at h
    split at h
    · have ht : l.takeWhile p = name ++ rest := List.tail_eq_of_cons_eq h
      rw [List.length_cons, List.drop_succ_cons]
      exact takeWhile_drop ht
    · cases h

/-- The string behind a part of the string in the buffer. -/
theorem cstr_drop (h : cstr path 0 = name ++ rest) : cstr path name.length = rest :=
  takeWhile_drop h

theorem cstr_drop_succ (h : cstr path 0 = name ++ c :: rest) :
    cstr path (name.length + 1) = rest := by
  have h' : cstr path 0 = (name ++ [c]) ++ rest := by
    rw [h, List.append_assoc, List.singleton_append]
  simpa using cstr_drop h'

theorem takeWhile_dropWhile (l : List UInt8) :
    (l.dropWhile (· = chSlash)).takeWhile (· ≠ 0) =
      (l.takeWhile (· ≠ 0)).dropWhile (· = chSlash) := by
  induction l with
  | nil => rfl
  | cons c l ih =>
    by_cases hs : c = chSlash
    · subst hs
      simpa [chSlash] using ih
    · by_cases h0 : c = 0
      · subst h0
        simp [chSlash]
      · simp [hs, h0]

/-- `*subpath` behind the slashes. -/
theorem cstr_skipSlashes (path : List UInt8) (k : ℕ) :
    cstr path (skipSlashes path k) = dropSlashes (cstr path (k + 1)) := by
  have hdrop : path.drop (skipSlashes path k) = (path.drop (k + 1)).dropWhile (· = chSlash) := by
    obtain ⟨l, hl⟩ : ∃ l, l = path.drop (k + 1) := ⟨_, rfl⟩
    have h : l.takeWhile (· = chSlash) ++ l.dropWhile (· = chSlash) = l :=
      List.takeWhile_append_dropWhile
    have hleft : (l.takeWhile (· = chSlash) ++ l.dropWhile (· = chSlash)).drop
        (l.takeWhile (· = chSlash)).length = l.dropWhile (· = chSlash) := List.drop_left
    rw [skipSlashes, ← List.drop_drop, ← hl, ← hleft, h]
  rw [cstr, hdrop, takeWhile_dropWhile]
  rfl

/-- The path is cut. -/
theorem takeWhile_set {p : UInt8 → Bool} (h0 : p 0 = false) : ∀ {name l : List UInt8},
    l.takeWhile p = name ++ c :: rest → (l.set name.length 0).takeWhile p = name
  | _, [], h => by simp at h
  | [], d :: l, _ => by simp [h0]
  | e :: name, d :: l, h => by
    rw [List.takeWhile_cons] at h
    split at h
    · rename_i hd
      have ht : l.takeWhile p = name ++ c :: rest := List.tail_eq_of_cons_eq h
      rw [List.length_cons, List.set_cons_succ, List.takeWhile_cons, if_pos hd, takeWhile_set h0 ht,
        List.head_eq_of_cons_eq h]
    · cases h

theorem cstr_set (h : cstr path 0 = name ++ c :: rest) : cstr (path.set name.length 0) 0 = name :=
  takeWhile_set (by decide) h

theorem cstr_set_drop (h : cstr path 0 = name ++ c :: rest) :
    cstr (path.set name.length 0) (name.length + 1) = rest := by
  rw [cstr, List.drop_set_of_lt (Nat.lt_succ_self _)]
  exact cstr_drop_succ h

/-! ## The loop -/

theorem scanLoop_takeWhile : ∀ (l : List UInt8) (i : ℤ),
    scanLoop l i = scanLoop (l.takeWhile (· ≠ 0)) i
  | [], _ => rfl
  | c :: l, i => by
    by_cases h0 : c = 0
    · subst h0
      rfl
    · simp only [List.takeWhile_cons, scanLoop, h0, ne_eq, not_false_eq_true, decide_true, if_true,
        if_false, scanLoop_takeWhile l (i + 1)]

theorem scanLoop_append : ∀ {name : List UInt8} {i : ℤ}, (∀ c ∈ name, c ≠ 0 ∧ ¬Special c) →
    scanLoop (name ++ l) i = scanLoop l (i + name.length)
  | [], i, _ => by simp
  | c :: name, i, h => by
    obtain ⟨⟨h0, hc⟩, h⟩ := List.forall_mem_cons.1 h
    rw [Special, not_or] at hc
    rw [List.cons_append, scanLoop, if_neg h0, if_neg hc.1, if_neg hc.2, scanLoop_append h]
    congr 1
    push_cast [List.length_cons]
    omega

theorem head?_of_cstr (h : cstr path 0 = c :: rest) : path.head? = some c := by
  cases path with
  | nil => cases h
  | cons d path =>
    rw [cstr, List.drop_zero, List.takeWhile_cons] at h
    split at h
    · rw [List.head?_cons, List.head_eq_of_cons_eq h]
    · cases h

theorem ne_zero_of_mem_cstr (h : c ∈ cstr path k) : c ≠ 0 := by
  simpa using List.mem_takeWhile_imp h

/-- The loop stops at a colon or a slash. -/
theorem scanLoop_special (h : cstr path 0 = name ++ c :: rest) (hn : ∀ c ∈ name, ¬Special c) :
    scanLoop path 0 = scanLoop (c :: rest) name.length := by
  have hpath : scanLoop path 0 = scanLoop (cstr path 0) 0 := scanLoop_takeWhile path 0
  have hz : ∀ d ∈ name, d ≠ 0 ∧ ¬Special d := fun d hd =>
    ⟨ne_zero_of_mem_cstr (h ▸ List.mem_append_left _ hd), hn d hd⟩
  rw [hpath, h, scanLoop_append hz, Int.zero_add]

theorem scanLoop_colon (h : cstr path 0 = name ++ chColon :: rest) (hn : ∀ c ∈ name, ¬Special c) :
    scanLoop path 0 = (-1, (name.length : ℤ)) := by
  rw [scanLoop_special h hn, scanLoop, if_neg (by decide), if_pos rfl]

theorem scanLoop_slash (h : cstr path 0 = name ++ chSlash :: rest) (hn : ∀ c ∈ name, ¬Special c) :
    scanLoop path 0 = ((name.length : ℤ), -1) := by
  rw [scanLoop_special h hn, scanLoop, if_neg (by decide), if_neg (by decide), if_pos rfl]

theorem scanLoop_none (h : ∀ c ∈ cstr path 0, ¬Special c) : scanLoop path 0 = (-1, -1) := by
  have hpath : scanLoop path 0 = scanLoop (cstr path 0) 0 := scanLoop_takeWhile path 0
  have hz : ∀ d ∈ cstr path 0, d ≠ 0 ∧ ¬Special d := fun d hd => ⟨ne_zero_of_mem_cstr hd, h d hd⟩
  rw [hpath, ← List.append_nil (cstr path 0), scanLoop_append hz]
  rfl

/-- The last form. -/
theorem scanLoop_cwd (h : Interprets (cstr path 0) .cwd rest) :
    (scanLoop path 0).2 < 0 ∧ (scanLoop path 0).1 ≠ 0 ∧ rest = cstr path 0 := by
  obtain ⟨l, hl⟩ : ∃ l, l = cstr path 0 := ⟨_, rfl⟩
  rw [← hl] at h ⊢
  obtain ⟨hs, hc⟩ : l.head? ≠ some chSlash ∧ ∀ name rest, l = name ++ chColon :: rest →
      chSlash ∈ name := by
    cases h with
    | cwd hs hc => exact ⟨hs, hc⟩
  have hrest : rest = l := by
    cases h with
    | cwd => rfl
  refine (and_assoc.1 ⟨?_, hrest⟩ : _)
  rcases exists_special l with hn | ⟨name, c, rest', he, hcs, hn⟩
  · rw [hl] at hn
    rw [scanLoop_none hn]
    decide
  · rcases hcs with rfl | rfl
    · exact absurd (.inr rfl) (hn _ (hc _ _ he))
    · rw [scanLoop_slash (hl.symm.trans he) hn]
      refine ⟨show (-1 : ℤ) < 0 by decide, fun h0 => hs ?_⟩
      have h0' : (name.length : ℤ) = 0 := h0
      have hname : name = [] := List.length_eq_zero_iff.1 (by exact_mod_cast h0')
      rw [he, hname]
      rfl

end Vfs

end Ucore
