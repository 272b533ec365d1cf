/-
  `parse` of `kern/debug/kmonitor.c`: the command line of the kernel monitor.

  The line lies in a buffer that ends with its NUL; a pointer is an index, and an access outside is
  `none`, as is a loop that runs out of steps.  What is stored to `argv` is the list of the indices
  with the pointers.  The message about too many arguments is left out; nothing else depends on it.

  * `wordStarts`: where the words of a line start;
  * `parse_iff`: they are stored, and the words terminated; `argv` has room for 16.
-/
import Ucore.Lib.Sweep
import Ucore.Libs.Strtol

namespace Ucore.Kmonitor

open Sweep

/-! ## The code -/

def maxArgs : ℕ := 16

/-- `WHITESPACE` -/
def whitespace : List UInt8 := [32, 9, 10, 13]

def isSpace (c : UInt8) : Bool := (strchr whitespace c).isSome

/-- The loop that puts NULs over whitespace. -/
def skipWhitespace : ℕ → List UInt8 → ℕ → Option (List UInt8 × ℕ)
  | 0, _, _ => none
  | n + 1, text, buf =>
    match text[buf]? with
    | none => none
    | some c =>
      if c ≠ 0 ∧ isSpace c = true then skipWhitespace n (text.set buf 0) (buf + 1)
      else some (text, buf)

/-- The loop that scans past an argument. -/
def scanPast : ℕ → List UInt8 → ℕ → Option ℕ
  | 0, _, _ => none
  | n + 1, text, buf =>
    match text[buf]? with
    | none => none
    | some c => if c ≠ 0 ∧ isSpace c = false then scanPast n text (buf + 1) else some buf

def parseLoop (len : ℕ) : ℕ → List UInt8 → ℕ → ℕ → List (ℕ × ℕ) →
    Option (ℕ × List UInt8 × List (ℕ × ℕ))
  | 0, _, _, _, _ => none
  | n + 1, text, buf, argc, argv =>
    match skipWhitespace len text buf with
    | none => none
    | some (text, buf) =>
      if text[buf]? = some 0 then some (argc, text, argv)
      else match scanPast len text buf with
        | none => none
        | some buf' => parseLoop len n text buf' (argc + 1) (argv ++ [(argc, buf)])

/-- `parse`: `argc`, the buffer, and what is stored to `argv`. -/
def parse (text : List UInt8) : Option (ℕ × List UInt8 × List (ℕ × ℕ)) :=
  parseLoop text.length text.length text 0 0 []

/-! ## Words -/

/-- The character at an index is in a word. -/
def inWord (cmd : List UInt8) (i : ℕ) : Bool := !isSpace (cmd.getD i 0)

/-- A word starts here: there is none in front of it. -/
def isStart (cmd : List UInt8) (i : ℕ) : Bool := inWord cmd i && (i == 0 || !inWord cmd (i - 1))

def wordStarts (cmd : List UInt8) : List ℕ := marks (isStart cmd) cmd.length

/-- The whole word that starts here. -/
def word (cmd : List UInt8) (i : ℕ) : List UInt8 := run (inWord cmd) cmd i

/-- What a character becomes. -/
def blanked (_ : ℕ) (c : UInt8) : UInt8 := if isSpace c then 0 else c

variable {cmd : List UInt8} {p n : ℕ} {c : UInt8}

theorem inWord_eq (h : cmd[p]? = some c) : inWord cmd p = !isSpace c := by
  rw [inWord, List.getD_eq_getElem?_getD, h, Option.getD_some]

theorem blanked_of_space (h : isSpace c = true) : blanked p c = 0 := if_pos h

theorem blanked_of_not_space (h : isSpace c = false) : blanked p c = c := if_neg (by simp [h])

/-! ## The loops -/

theorem skipWhitespace_spec (hcmd : (0 : UInt8) ∉ cmd) : ∀ {n p : ℕ}, p ≤ cmd.length →
    cmd.length - p < n → ∃ q, p ≤ q ∧ q ≤ cmd.length ∧
      (∀ j, p ≤ j → j < q → inWord cmd j = false) ∧ (q < cmd.length → inWord cmd q = true) ∧
      skipWhitespace n (buffer blanked cmd 0 p) p = some (buffer blanked cmd 0 q, q)
  | 0, _, _, h => by omega
  | n + 1, p, hp, hn => by
    obtain rfl | hp := Nat.eq_or_lt_of_le hp
    · refine ⟨cmd.length, le_rfl, le_rfl, fun j h1 h2 => by omega, fun h => by omega, ?_⟩
      rw [skipWhitespace, buffer_end]
      exact if_neg fun h => h.1 rfl
    · obtain ⟨c, hc⟩ : ∃ c, cmd[p]? = some c := ⟨_, List.getElem?_eq_getElem hp⟩
      have h0 : c ≠ 0 := fun h => hcmd (h ▸ List.mem_of_getElem? hc)
      rw [skipWhitespace, buffer_at hc]
      dsimp only
      cases hs : isSpace c with
      | false =>
        refine ⟨p, le_rfl, hp.le, fun j h1 h2 => by omega, fun _ => ?_, if_neg fun h => ?_⟩
        · rw [inWord_eq hc, hs]
          rfl
        · exact Bool.false_ne_true h.2
      | true =>
        obtain ⟨q, hpq, hq, hall, hend, hskip⟩ :=
          skipWhitespace_spec hcmd (n := n) (p := p + 1) hp (by omega)
        refine ⟨q, by omega, hq, fun j h1 h2 => ?_, hend, ?_⟩
        · obtain rfl | h1 := Nat.eq_or_lt_of_le h1
          · rw [inWord_eq hc, hs]
            rfl
          · exact hall j h1 h2
        · have hset := set_buffer (f := blanked) (z := 0) hc
          rw [blanked_of_space hs] at hset
          rw [if_pos ⟨h0, rfl⟩, hset, hskip]

theorem scanPast_spec (hcmd : (0 : UInt8) ∉ cmd) : ∀ {n p : ℕ}, p ≤ cmd.length →
    cmd.length - p < n → ∃ q, p ≤ q ∧ q ≤ cmd.length ∧
      (∀ j, p ≤ j → j < q → inWord cmd j = true) ∧ (q < cmd.length → inWord cmd q = false) ∧
      scanPast n (buffer blanked cmd 0 p) p = some q ∧
      buffer blanked cmd 0 q = buffer blanked cmd 0 p
  | 0, _, _, h => by omega
  | n + 1, p, hp, hn => by
    obtain rfl | hp := Nat.eq_or_lt_of_le hp
    · refine ⟨cmd.length, le_rfl, le_rfl, fun j h1 h2 => by omega, fun h => by omega, ?_, rfl⟩
      rw [scanPast, buffer_end]
      exact if_neg fun h => h.1 rfl
    · obtain ⟨c, hc⟩ : ∃ c, cmd[p]? = some c := ⟨_, List.getElem?_eq_getElem hp⟩
      have h0 : c ≠ 0 := fun h => hcmd (h ▸ List.mem_of_getElem? hc)
      rw [scanPast, buffer_at hc]
      dsimp only
      cases hs : isSpace c with
      | true =>
        refine ⟨p, le_rfl, hp.le, fun j h1 h2 => by omega, fun _ => ?_, if_neg fun h => ?_, rfl⟩
        · rw [inWord_eq hc, hs]
          rfl
        · exact Bool.false_ne_true h.2.symm
      | false =>
        obtain ⟨q, hpq, hq, hall, hend, hscan, hbuf⟩ :=
          scanPast_spec hcmd (n := n) (p := p + 1) hp (by omega)
        have hsucc := buffer_succ (z := 0) hc (blanked_of_not_space (p := p) hs)
        rw [hsucc] at hscan hbuf
        refine ⟨q, by omega, hq, fun j h1 h2 => ?_, hend, ?_, hbuf⟩
        · obtain rfl | h1 := Nat.eq_or_lt_of_le h1
          · rw [inWord_eq hc, hs]
            rfl
          · exact hall j h1 h2
        · rw [if_pos ⟨h0, rfl⟩, hscan]

/-- The words of the line up to `p`, and those behind it; `p` is the start of the line or the end
    of a word. -/
theorem parseLoop_spec (hcmd : (0 : UInt8) ∉ cmd) {len : ℕ} (hlen : cmd.length < len) :
    ∀ {n p : ℕ}, p ≤ cmd.length → cmd.length - p < n →
      (p ≠ 0 → p < cmd.length → inWord cmd p = false) →
      parseLoop len n (buffer blanked cmd 0 p) p (marks (isStart cmd) p).length
          ((marks (isStart cmd) p).mapIdx Prod.mk) =
        some ((wordStarts cmd).length, buffer blanked cmd 0 cmd.length,
          (wordStarts cmd).mapIdx Prod.mk)
  | 0, _, _, h, _ => by omega
  | n + 1, p, hp, hn, hpos => by
    obtain ⟨q, hpq, hq, hall, hend, hskip⟩ := skipWhitespace_spec hcmd hp (n := len) (by omega)
    have hmarks : marks (isStart cmd) q = marks (isStart cmd) p :=
      marks_of_none hpq fun j h1 h2 => by rw [isStart, hall j h1 h2, Bool.false_and]
    rw [parseLoop, hskip]
    dsimp only
    obtain rfl | hql := Nat.eq_or_lt_of_le hq
    · rw [if_pos buffer_end, wordStarts, hmarks]
    · obtain ⟨c, hc⟩ : ∃ c, cmd[q]? = some c := ⟨_, List.getElem?_eq_getElem hql⟩
      have h0 : c ≠ 0 := fun h => hcmd (h ▸ List.mem_of_getElem? hc)
      have hin := hend hql
      obtain ⟨r, hqr, hr, hword, hrend, hscan, hbuf⟩ :=
        scanPast_spec hcmd hq (n := len) (by omega)
      have hlt : q < r := by
        obtain rfl | hlt := Nat.eq_or_lt_of_le hqr
        · exact absurd (hrend hql) (by simp [hin])
        · exact hlt
      -- the word starts at `q`
      have hstart : isStart cmd q = true := by
        rw [isStart, hin, Bool.true_and]
        obtain rfl | hq0 := Nat.eq_zero_or_pos q
        · rfl
        · have hprev : inWord cmd (q - 1) = false := by
            obtain rfl | hlt' := Nat.eq_or_lt_of_le hpq
            · exact absurd (hpos (by omega) hql) (by simp [hin])
            · exact hall _ (by omega) (by omega)
          rw [hprev, Bool.not_false, Bool.or_true]
      have hmarks' : marks (isStart cmd) r = marks (isStart cmd) p ++ [q] := by
        rw [← hmarks, ← marks_succ hstart]
        refine marks_of_none hlt fun j h1 h2 => ?_
        have hj : (j == 0) = false := by
          rw [beq_eq_false_iff_ne]
          omega
        rw [isStart, hword (j - 1) (by omega) (by omega), hj]
        simp
      have ih := parseLoop_spec hcmd hlen (n := n) (p := r) hr (by omega) fun _ => hrend
      rw [hmarks', List.length_append, List.length_singleton, List.mapIdx_concat, hbuf] at ih
      rw [if_neg (by rw [buffer_at hc]; exact fun h => h0 (Option.some.inj h)), hscan]
      exact ih

/-- **The command line.**  `parse` stores the start of each word in turn and returns their number;
each word is terminated.  It stores only to the 16 places of `argv` if and only if there are no more
than 16 words. -/
theorem parse_iff (hcmd : (0 : UInt8) ∉ cmd) : ∃ text argv,
    parse (cmd ++ [0]) = some ((wordStarts cmd).length, text, argv) ∧
      argv = (wordStarts cmd).mapIdx Prod.mk ∧
      (∀ i ∈ wordStarts cmd, word cmd i ++ [0] <+: text.drop i) ∧
      ((∀ s ∈ argv, s.1 < maxArgs) ↔ (wordStarts cmd).length ≤ maxArgs) := by
  refine ⟨buffer blanked cmd 0 cmd.length, _, ?_, rfl, fun i hi => ?_, fun h => ?_,
    fun h s hs => ?_⟩
  · have hloop := parseLoop_spec hcmd (Nat.lt_succ_self cmd.length) (n := cmd.length + 1)
      (Nat.zero_le _) (by omega) fun h => absurd rfl h
    rw [buffer_zero] at hloop
    rw [parse, List.length_append]
    exact hloop
  · have hrun := run_terminated (f := blanked) (z := 0) (g := id) (m := inWord cmd)
      (mem_marks.1 hi).1.le (fun j c hc hm => ?_) (fun j c hc hm => ?_) (.inr rfl)
    · rwa [List.map_id] at hrun
    · rw [inWord_eq hc] at hm
      exact blanked_of_not_space (by simpa using hm)
    · rw [inWord_eq hc] at hm
      exact blanked_of_space (by simpa using hm)
  · by_contra hlt
    have hlt : maxArgs < (wordStarts cmd).length := by omega
    have hmem : (maxArgs, (wordStarts cmd)[maxArgs]) ∈ (wordStarts cmd).mapIdx Prod.mk :=
      List.mem_mapIdx.2 ⟨maxArgs, hlt, rfl⟩
    exact Nat.lt_irrefl _ (h _ hmem)
  · obtain ⟨k, hk, rfl⟩ := List.mem_mapIdx.1 hs
    exact hk.trans_le h

/-- `ls -l` -/
theorem parse_iff_two : (0 : UInt8) ∉ ([108, 115, 32, 45, 108] : List UInt8) ∧ ∃ text argv,
    parse [108, 115, 32, 45, 108, 0] = some (2, text, argv) ∧ argv = [(0, 0), (1, 3)] ∧
      ∀ i ∈ [0, 3], word [108, 115, 32, 45, 108] i ++ [0] <+: text.drop i := by
  have h : (0 : UInt8) ∉ ([108, 115, 32, 45, 108] : List UInt8) := by decide
  obtain ⟨text, argv, hparse, hargv, hwords, -⟩ := parse_iff h
  exact ⟨h, text, argv, hparse, hargv, hwords⟩

/-- With 17 words there is a store behind the end of `argv`. -/
theorem parse_seventeen : ∃ text argv,
    parse ((List.replicate 16 [97, 32]).flatten ++ [97, 0]) = some (17, text, argv) ∧
      (16, 32) ∈ argv ∧ ¬∀ s ∈ argv, s.1 < maxArgs :=
  ⟨_, _, rfl, by decide, by decide⟩

end Ucore.Kmonitor
