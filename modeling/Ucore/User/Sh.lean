/-
  `gettoken` of `user/sh.c`: the words and symbols of a command line.

  The line lies in a buffer that ends with its NUL; a pointer is an index, and an access outside is
  `none`, as is a loop that runs out of steps.

  * `inQuotes`, `inWord`, `isStart`: the tokens of a line;
  * `Reads`: the buffer after some calls that found tokens;
  * `gettoken_tokens`: the calls find the tokens in turn.
-/
import Ucore.Lib.Sweep
import Ucore.Libs.Strtol

namespace Ucore.Sh

open Sweep

/-! ## The code -/

/-- `WHITESPACE` -/
def whitespace : List UInt8 := [32, 9, 13, 10]

/-- `SYMBOLS` -/
def symbols : List UInt8 := [60, 124, 62, 38, 59]

def isSpace (c : UInt8) : Bool := (strchr whitespace c).isSome

def isSymbol (c : UInt8) : Bool := (strchr symbols c).isSome

/-- What a call leaves: the token that it returns, the buffer, and what the pointers point to. -/
structure Call where
  token : UInt8
  text : List UInt8
  p1 : Option ℕ
  p2 : ℕ

/-- The loop that puts NULs over whitespace. -/
def skipWhitespace : ℕ → List UInt8 → ℕ → Option (List UInt8 × ℕ)
  | 0, _, _ => none
  | n + 1, text, s =>
    match text[s]? with
    | none => none
    | some c => if isSpace c then skipWhitespace n (text.set s 0) (s + 1) else some (text, s)

/-- The loop over the characters of a word. -/
def scanWord : ℕ → List UInt8 → ℕ → Bool → Option (List UInt8 × ℕ)
  | 0, _, _, _ => none
  | n + 1, text, s, flag =>
    match text[s]? with
    | none => none
    | some c =>
      if c ≠ 0 ∧ (flag = true ∨ strchr (whitespace ++ symbols) c = none) then
        if c = 34 then scanWord n (text.set s 32) (s + 1) !flag else scanWord n text (s + 1) flag
      else some (text, s)

/-- From where a token starts: the token, the buffer, and where it ends. -/
def readToken (text : List UInt8) (s : ℕ) (c : UInt8) : Option (UInt8 × List UInt8 × ℕ) :=
  if isSymbol c then some (c, text.set s 0, s + 1)
  else (scanWord text.length text s false).map fun r => (119, r.1, r.2)

def gettoken (text : List UInt8) (p1 : Option ℕ) (p2 : ℕ) : Option Call :=
  match p1 with
  | none => some ⟨0, text, none, p2⟩
  | some p =>
    match skipWhitespace text.length text p with
    | none => none
    | some (text, s) =>
      match text[s]? with
      | none => none
      | some c =>
        if c = 0 then some ⟨0, text, some p, p2⟩
        else match readToken text s c with
          | none => none
          | some (token, text, s') =>
            text[s']?.map fun c => ⟨token, text, if c ≠ 0 then some s' else none, s⟩

/-- Calls with the same pointers, of which the first points to the line. -/
def calls (cmd : List UInt8) (t : ℕ) : ℕ → Option Call
  | 0 => some ⟨0, cmd ++ [0], some 0, t⟩
  | n + 1 => (calls cmd t n).bind fun c => gettoken c.text c.p1 c.p2

/-! ## Tokens -/

/-- There is an odd number of quotes in front of it. -/
def inQuotes (cmd : List UInt8) (i : ℕ) : Bool := (cmd.take i).count 34 % 2 == 1

/-- Whitespace outside of quotes. -/
def separates (cmd : List UInt8) (i : ℕ) : Bool := !inQuotes cmd i && isSpace (cmd.getD i 0)

/-- A symbol outside of quotes. -/
def symbolAt (cmd : List UInt8) (i : ℕ) : Bool := !inQuotes cmd i && isSymbol (cmd.getD i 0)

def inWord (cmd : List UInt8) (i : ℕ) : Bool := !separates cmd i && !symbolAt cmd i

/-- A token starts here: a symbol, or a word that there is nothing of in front of it. -/
def isStart (cmd : List UInt8) (i : ℕ) : Bool :=
  symbolAt cmd i || (inWord cmd i && (i == 0 || !inWord cmd (i - 1)))

def tokenStarts (cmd : List UInt8) : List ℕ := marks (isStart cmd) cmd.length

/-- What is returned for the token: the symbol, or a `w`. -/
def tokenAt (cmd : List UInt8) (i : ℕ) : UInt8 := if symbolAt cmd i then cmd.getD i 0 else 119

/-- The whole word that starts here. -/
def word (cmd : List UInt8) (i : ℕ) : List UInt8 := run (inWord cmd) cmd i

/-- A quote becomes a blank. -/
def unquote (c : UInt8) : UInt8 := if c = 34 then 32 else c

/-- What a character becomes. -/
def rewritten (cmd : List UInt8) (i : ℕ) (c : UInt8) : UInt8 :=
  if inWord cmd i then unquote c else 0

variable {cmd : List UInt8} {p q e i n t : ℕ} {c : UInt8}

theorem separates_eq (h : cmd[p]? = some c) :
    separates cmd p = (!inQuotes cmd p && isSpace c) := by
  rw [separates, List.getD_eq_getElem?_getD, h, Option.getD_some]

theorem symbolAt_eq (h : cmd[p]? = some c) :
    symbolAt cmd p = (!inQuotes cmd p && isSymbol c) := by
  rw [symbolAt, List.getD_eq_getElem?_getD, h, Option.getD_some]

theorem inQuotes_succ (h : cmd[p]? = some c) :
    inQuotes cmd (p + 1) = (inQuotes cmd p ^^ (c == 34)) := by
  rw [inQuotes, List.take_add_one, h, List.count_append, inQuotes]
  cases hc : c == 34 with
  | false => simp [List.count_singleton, hc]
  | true =>
    have hcount : List.count (34 : UInt8) (some c).toList = 1 := by simp [List.count_singleton, hc]
    rw [hcount]
    obtain h2 | h2 := Nat.mod_two_eq_zero_or_one (List.count 34 (cmd.take p))
    · rw [Nat.add_mod, h2]
      rfl
    · rw [Nat.add_mod, h2]
      rfl

theorem inWord_of_separates (h : separates cmd p = true) : inWord cmd p = false := by
  rw [inWord, h, Bool.not_true, Bool.false_and]

theorem inWord_of_symbolAt (h : symbolAt cmd p = true) : inWord cmd p = false := by
  rw [inWord, h, Bool.not_true, Bool.and_false]

theorem symbolAt_of_inWord (h : inWord cmd p = true) : symbolAt cmd p = false := by
  rw [inWord, Bool.and_eq_true] at h
  simpa using h.2

/-- Quotes are neither whitespace nor symbols, and no character is both. -/
theorem isSpace_cases (h : isSpace c = true) : isSymbol c = false ∧ (c == 34) = false := by
  have hc : c ∈ whitespace := strchr_isSome.1 h
  simp only [whitespace, List.mem_cons, List.not_mem_nil, or_false] at hc
  obtain rfl | rfl | rfl | rfl := hc <;> decide

theorem isSymbol_cases (h : isSymbol c = true) : (c == 34) = false := by
  have hc : c ∈ symbols := strchr_isSome.1 h
  simp only [symbols, List.mem_cons, List.not_mem_nil, or_false] at hc
  obtain rfl | rfl | rfl | rfl | rfl := hc <;> rfl

theorem strchr_separators : strchr (whitespace ++ symbols) c = none ↔
    isSpace c = false ∧ isSymbol c = false := by
  rw [← Option.not_isSome_iff_eq_none, strchr_isSome, List.mem_append, not_or, isSpace, isSymbol,
    ← Bool.not_eq_true, ← Bool.not_eq_true, strchr_isSome, strchr_isSome]

/-! ## The loops -/

theorem skipWhitespace_spec (hcmd : (0 : UInt8) ∉ cmd) : ∀ {n p : ℕ}, p ≤ cmd.length →
    cmd.length - p < n → (p < cmd.length → inQuotes cmd p = false) →
    ∃ q, p ≤ q ∧ q ≤ cmd.length ∧ (∀ j, p ≤ j → j < q → separates cmd j = true) ∧
      (q < cmd.length → inQuotes cmd q = false ∧ separates cmd q = false) ∧
      skipWhitespace n (buffer (rewritten cmd) cmd 0 p) p =
        some (buffer (rewritten cmd) cmd 0 q, q)
  | 0, _, _, h, _ => by omega
  | n + 1, p, hp, hn, hquotes => by
    obtain rfl | hp := Nat.eq_or_lt_of_le hp
    · refine ⟨cmd.length, le_rfl, le_rfl, fun j h1 h2 => by omega, fun h => by omega, ?_⟩
      rw [skipWhitespace, buffer_end]
      rfl
    · obtain ⟨c, hc⟩ : ∃ c, cmd[p]? = some c := ⟨_, List.getElem?_eq_getElem hp⟩
      have hout := hquotes hp
      have hsep : separates cmd p = isSpace c := by rw [separates_eq hc, hout]; rfl
      rw [skipWhitespace, buffer_at hc]
      dsimp only
      cases hs : isSpace c with
      | false =>
        rw [hs] at hsep
        exact ⟨p, le_rfl, hp.le, fun j h1 h2 => by omega, fun _ => ⟨hout, hsep⟩, if_neg (by simp)⟩
      | true =>
        rw [hs] at hsep
        have hnext : inQuotes cmd (p + 1) = false := by
          rw [inQuotes_succ hc, hout, (isSpace_cases hs).2]
          rfl
        obtain ⟨q, hpq, hq, hall, hend, hskip⟩ :=
          skipWhitespace_spec hcmd (n := n) (p := p + 1) hp (by omega) fun _ => hnext
        have hset := set_buffer (f := rewritten cmd) (z := 0) hc
        rw [rewritten, if_neg (by simp [inWord_of_separates hsep])] at hset
        refine ⟨q, by omega, hq, fun j h1 h2 => ?_, hend, ?_⟩
        · obtain rfl | h1 := Nat.eq_or_lt_of_le h1
          · exact hsep
          · exact hall j h1 h2
        · rw [if_pos rfl, hset, hskip]

theorem scanWord_spec (hcmd : (0 : UInt8) ∉ cmd) : ∀ {n p : ℕ}, p ≤ cmd.length →
    cmd.length - p < n →
    ∃ q, p ≤ q ∧ q ≤ cmd.length ∧ (∀ j, p ≤ j → j < q → inWord cmd j = true) ∧
      (q < cmd.length → inQuotes cmd q = false ∧ inWord cmd q = false) ∧
      scanWord n (buffer (rewritten cmd) cmd 0 p) p (inQuotes cmd p) =
        some (buffer (rewritten cmd) cmd 0 q, q)
  | 0, _, _, h => by omega
  | n + 1, p, hp, hn => by
    obtain rfl | hp := Nat.eq_or_lt_of_le hp
    · refine ⟨cmd.length, le_rfl, le_rfl, fun j h1 h2 => by omega, fun h => by omega, ?_⟩
      rw [scanWord, buffer_end]
      exact if_neg fun h => h.1 rfl
    · obtain ⟨c, hc⟩ : ∃ c, cmd[p]? = some c := ⟨_, List.getElem?_eq_getElem hp⟩
      have h0 : c ≠ 0 := fun h => hcmd (h ▸ List.mem_of_getElem? hc)
      have hiff : (inQuotes cmd p = true ∨ strchr (whitespace ++ symbols) c = none) ↔
          inWord cmd p = true := by
        rw [strchr_separators, inWord, separates_eq hc, symbolAt_eq hc]
        cases inQuotes cmd p <;> simp
      rw [scanWord, buffer_at hc]
      dsimp only
      by_cases hw : inWord cmd p = true
      · obtain ⟨q, hpq, hq, hall, hend, hscan⟩ :=
          scanWord_spec hcmd (n := n) (p := p + 1) hp (by omega)
        have hset := set_buffer (f := rewritten cmd) (z := 0) hc
        rw [rewritten, if_pos hw] at hset
        have hnext := inQuotes_succ hc
        refine ⟨q, by omega, hq, fun j h1 h2 => ?_, hend, ?_⟩
        · obtain rfl | h1 := Nat.eq_or_lt_of_le h1
          · exact hw
          · exact hall j h1 h2
        · rw [if_pos ⟨h0, hiff.2 hw⟩]
          split
          · next h34 =>
            rw [unquote, if_pos h34] at hset
            rw [h34, beq_self_eq_true, Bool.xor_true] at hnext
            rw [hset, ← hnext, hscan]
          · next h34 =>
            have hkeep : rewritten cmd p c = c := by rw [rewritten, if_pos hw, unquote, if_neg h34]
            rw [beq_eq_false_iff_ne.2 h34, Bool.xor_false] at hnext
            rw [← buffer_succ hc hkeep, ← hnext, hscan]
      · rw [Bool.not_eq_true] at hw
        have hout : inQuotes cmd p = false := by
          rw [inWord, separates_eq hc, symbolAt_eq hc] at hw
          cases hq : inQuotes cmd p with
          | false => rfl
          | true => simp [hq] at hw
        exact ⟨p, le_rfl, hp.le, fun j h1 h2 => by omega, fun _ => ⟨hout, hw⟩,
          if_neg fun h => by rw [hiff.1 h.2] at hw; cases hw⟩

/-! ## Calls -/

/-- What `n` calls that found tokens leave: they read the line up to `e`, which is not within a
    word. -/
structure Reads (cmd : List UInt8) (n : ℕ) (c : Call) (e : ℕ) : Prop where
  text : c.text = buffer (rewritten cmd) cmd 0 e
  le : e ≤ cmd.length
  p1 : c.p1 = some e ∨ c.p1 = none ∧ e = cmd.length
  count : (marks (isStart cmd) e).length = n
  quotes : e < cmd.length → inQuotes cmd e = false
  fresh : e ≠ 0 → e < cmd.length → inWord cmd (e - 1) = true → inWord cmd e = false

/-- What the calls leave that find no more tokens. -/
structure Done (cmd : List UInt8) (c : Call) : Prop where
  token : c.token = 0
  text : c.text = buffer (rewritten cmd) cmd 0 cmd.length
  p1 : c.p1 = none ∨ ∃ s, c.p1 = some s ∧ c.text[s]? = some 0

theorem Done.gettoken {c : Call} (h : Done cmd c) : gettoken c.text c.p1 c.p2 = some c := by
  obtain ⟨token, text, p1, p2⟩ := c
  obtain rfl : token = 0 := h.token
  have hlen : text.length = cmd.length + 1 := by
    rw [show text = _ from h.text, length_buffer]
  obtain hp | ⟨s, hp, hs⟩ := h.p1
  · obtain rfl : p1 = none := hp
    rfl
  · obtain rfl : p1 = some s := hp
    have hs' : text[s]? = some 0 := hs
    have hskip : skipWhitespace text.length text s = some (text, s) := by
      rw [hlen, skipWhitespace, hs']
      rfl
    rw [Sh.gettoken, hskip]
    dsimp only
    rw [hs']
    rfl

/-- One token. -/
theorem readToken_spec (hcmd : (0 : UInt8) ∉ cmd) (hc : cmd[q]? = some c)
    (hout : inQuotes cmd q = false) (hsep : separates cmd q = false) :
    ∃ e, q < e ∧ e ≤ cmd.length ∧
      readToken (buffer (rewritten cmd) cmd 0 q) q c =
        some (tokenAt cmd q, buffer (rewritten cmd) cmd 0 e, e) ∧
      (∀ j, q < j → j < e → isStart cmd j = false) ∧
      (e < cmd.length → inQuotes cmd e = false) ∧
      (e < cmd.length → inWord cmd (e - 1) = true → inWord cmd e = false) := by
  have hq := (List.getElem?_eq_some_iff.1 hc).1
  have hsym : symbolAt cmd q = isSymbol c := by rw [symbolAt_eq hc, hout]; rfl
  rw [readToken]
  cases hs : isSymbol c with
  | true =>
    rw [hs] at hsym
    have hset := set_buffer (f := rewritten cmd) (z := 0) hc
    have hw := inWord_of_symbolAt hsym
    rw [rewritten, if_neg (by simp [hw])] at hset
    refine ⟨q + 1, Nat.lt_succ_self q, hq, ?_, fun j h1 h2 => by omega, fun _ => ?_, fun _ h => ?_⟩
    · rw [if_pos rfl, hset, tokenAt, if_pos hsym, List.getD_eq_getElem?_getD, hc, Option.getD_some]
    · rw [inQuotes_succ hc, hout, isSymbol_cases hs]
      rfl
    · rw [Nat.add_sub_cancel, hw] at h
      cases h
  | false =>
    rw [hs] at hsym
    obtain ⟨e, hqe, he, hall, hend, hscan⟩ := scanWord_spec hcmd hq.le
      (n := (buffer (rewritten cmd) cmd 0 q).length) (by rw [length_buffer]; omega)
    have hw : inWord cmd q = true := by rw [inWord, hsep, hsym]; rfl
    have hlt : q < e := by
      obtain rfl | hlt := Nat.eq_or_lt_of_le hqe
      · rw [(hend hq).2] at hw
        cases hw
      · exact hlt
    refine ⟨e, hlt, he, ?_, fun j h1 h2 => ?_, fun h => (hend h).1, fun h _ => (hend h).2⟩
    · rw [hout] at hscan
      rw [if_neg (by simp), hscan, tokenAt, if_neg (by simp [hsym])]
      rfl
    · have hj : (j == 0) = false := by
        rw [beq_eq_false_iff_ne]
        omega
      rw [isStart, symbolAt_of_inWord (hall j h1.le h2), hall (j - 1) (by omega) (by omega), hj]
      simp

/-- No token starts in whitespace. -/
theorem isStart_of_separates (h : separates cmd p = true) : isStart cmd p = false := by
  have hsym : symbolAt cmd p = false := by
    rw [separates, Bool.and_eq_true] at h
    rw [symbolAt, (isSpace_cases h.2).1, Bool.and_false]
  rw [isStart, hsym, inWord_of_separates h]
  rfl

section
variable {c : Call} {q e' : ℕ}

/-- Behind the whitespace a token starts: nothing of a word is in front of it. -/
theorem Reads.starts (h : Reads cmd n c e) (heq : e ≤ q) (hql : q < cmd.length)
    (hall : ∀ j, e ≤ j → j < q → separates cmd j = true) (hsep : separates cmd q = false) :
    isStart cmd q = true := by
  rw [isStart]
  cases hs : symbolAt cmd q with
  | true => rfl
  | false =>
    have hw : inWord cmd q = true := by rw [inWord, hsep, hs]; rfl
    rw [hw, Bool.false_or, Bool.true_and]
    obtain rfl | hq0 := Nat.eq_zero_or_pos q
    · rfl
    · have hprev : inWord cmd (q - 1) = false := by
        obtain rfl | hlt := Nat.eq_or_lt_of_le heq
        · cases hw' : inWord cmd (e - 1) with
          | false => rfl
          | true =>
            rw [h.fresh (by omega) hql hw'] at hw
            cases hw
        · exact inWord_of_separates (hall _ (by omega) (by omega))
      rw [hprev, Bool.not_false, Bool.or_true]

/-- The token that is found is the next one. -/
theorem Reads.next (h : Reads cmd n c e) (hmarks : marks (isStart cmd) q = marks (isStart cmd) e)
    (hstart : isStart cmd q = true) (hqe : q < e') (he : e' ≤ cmd.length)
    (hnone : ∀ j, q < j → j < e' → isStart cmd j = false) :
    (tokenStarts cmd)[n]? = some q ∧ (marks (isStart cmd) e').length = n + 1 := by
  have hmarks' : marks (isStart cmd) e' = marks (isStart cmd) e ++ [q] := by
    rw [← hmarks, ← marks_succ hstart]
    exact marks_of_none hqe fun j h1 h2 => hnone j h1 h2
  constructor
  · obtain ⟨rest, hrest⟩ := marks_prefix (m := isStart cmd) he
    rw [tokenStarts, ← hrest, hmarks', List.append_assoc, ← h.count,
      List.getElem?_append_right le_rfl, Nat.sub_self]
    rfl
  · rw [hmarks', List.length_append, h.count]
    rfl

/-- The rest is whitespace. -/
theorem Reads.last (h : Reads cmd n c e)
    (hmarks : marks (isStart cmd) cmd.length = marks (isStart cmd) e)
    (hall : ∀ j, e ≤ j → j < cmd.length → separates cmd j = true) (p : ℕ) :
    (tokenStarts cmd).length = n ∧
      Done cmd ⟨0, buffer (rewritten cmd) cmd 0 cmd.length, some e, p⟩ := by
  refine ⟨by rw [tokenStarts, hmarks, h.count], rfl, rfl, .inr ⟨e, rfl, ?_⟩⟩
  obtain rfl | hel := Nat.eq_or_lt_of_le h.le
  · exact buffer_end
  · have hc := List.getElem?_eq_getElem hel
    change (buffer (rewritten cmd) cmd 0 cmd.length)[e]? = some 0
    rw [getElem?_buffer hc, if_pos hel, rewritten,
      if_neg (by simp [inWord_of_separates (hall e le_rfl hel)])]

/-- **One call**: it finds the next token, or there is none. -/
theorem Reads.gettoken (hcmd : (0 : UInt8) ∉ cmd) (h : Reads cmd n c e) :
    (∃ c' q e', gettoken c.text c.p1 c.p2 = some c' ∧ (tokenStarts cmd)[n]? = some q ∧
      c'.token = tokenAt cmd q ∧ c'.p2 = q ∧ e < e' ∧ Reads cmd (n + 1) c' e') ∨
    (∃ c', gettoken c.text c.p1 c.p2 = some c' ∧ (tokenStarts cmd).length = n ∧ Done cmd c') := by
  obtain ⟨token, text, p1, p2⟩ := c
  obtain rfl : text = buffer (rewritten cmd) cmd 0 e := h.text
  obtain hp | ⟨hp, rfl⟩ := h.p1
  · obtain rfl : p1 = some e := hp
    obtain ⟨q, heq, hq, hall, hend, hskip⟩ := skipWhitespace_spec hcmd h.le
      (n := (buffer (rewritten cmd) cmd 0 e).length) (by rw [length_buffer]; omega) h.quotes
    have hmarks : marks (isStart cmd) q = marks (isStart cmd) e :=
      marks_of_none heq fun j h1 h2 => isStart_of_separates (hall j h1 h2)
    rw [Sh.gettoken, hskip]
    dsimp only
    obtain rfl | hql := Nat.eq_or_lt_of_le hq
    · obtain ⟨hlen, hdone⟩ := h.last hmarks hall p2
      refine .inr ⟨_, ?_, hlen, hdone⟩
      rw [buffer_end]
      rfl
    · obtain ⟨c, hc⟩ : ∃ c, cmd[q]? = some c := ⟨_, List.getElem?_eq_getElem hql⟩
      have h0 : c ≠ 0 := fun h => hcmd (h ▸ List.mem_of_getElem? hc)
      obtain ⟨hout, hsep⟩ := hend hql
      obtain ⟨e', hqe, he, hread, hnone, hquotes, hfresh⟩ := readToken_spec hcmd hc hout hsep
      obtain ⟨hnth, hcount⟩ := h.next hmarks (h.starts heq hql hall hsep) hqe he hnone
      rw [buffer_at hc]
      dsimp only
      rw [if_neg h0, hread]
      dsimp only
      obtain rfl | hel := Nat.eq_or_lt_of_le he
      · rw [buffer_end]
        exact .inl ⟨_, q, cmd.length, rfl, hnth, rfl, rfl, by omega, rfl, le_rfl, .inr ⟨rfl, rfl⟩,
          hcount, hquotes, fun _ => hfresh⟩
      · obtain ⟨d, hd⟩ : ∃ d, cmd[e']? = some d := ⟨_, List.getElem?_eq_getElem hel⟩
        have hd0 : d ≠ 0 := fun h => hcmd (h ▸ List.mem_of_getElem? hd)
        rw [buffer_at hd]
        exact .inl ⟨_, q, e', rfl, hnth, rfl, rfl, by omega, rfl, he, .inl (if_pos hd0), hcount,
          hquotes, fun _ => hfresh⟩
  · obtain rfl : p1 = none := hp
    exact .inr ⟨_, rfl, h.count, rfl, rfl, .inl rfl⟩

end

/-! ## Runs -/

theorem calls_spec (hcmd : (0 : UInt8) ∉ cmd) (t : ℕ) : ∀ n, ∃ c, calls cmd t n = some c ∧
    ((∃ e, Reads cmd n c e) ∨ (tokenStarts cmd).length < n ∧ Done cmd c)
  | 0 => by
    refine ⟨_, rfl, .inl ⟨0, buffer_zero.symm, Nat.zero_le _, .inl rfl, rfl, fun _ => rfl, ?_⟩⟩
    exact fun h => absurd rfl h
  | n + 1 => by
    obtain ⟨c, hc, ⟨e, he⟩ | ⟨hn, hdone⟩⟩ := calls_spec hcmd t n
    · rw [calls, hc, Option.bind_some]
      obtain ⟨c', q, e', hget, -, -, -, -, he'⟩ | ⟨c', hget, hn, hdone⟩ := he.gettoken hcmd
      · exact ⟨c', hget, .inl ⟨e', he'⟩⟩
      · exact ⟨c', hget, .inr ⟨by omega, hdone⟩⟩
    · rw [calls, hc, Option.bind_some]
      exact ⟨c, hdone.gettoken, .inr ⟨by omega, hdone⟩⟩

/-- A word is terminated when the line is read further, or to its end. -/
theorem word_terminated (hi : i ≤ cmd.length)
    (hp : i + runLength (inWord cmd) cmd.length i < p ∨ p = cmd.length) :
    (word cmd i).map unquote ++ [0] <+: (buffer (rewritten cmd) cmd 0 p).drop i := by
  refine run_terminated hi (fun j c _ hm => ?_) (fun j c _ hm => ?_) hp
  · rw [rewritten, if_pos hm]
  · rw [rewritten, if_neg (by simp [hm])]

/-- The words that the calls found end before `e`. -/
theorem Reads.word_le {c : Call} (h : Reads cmd n c e) (hi : i ∈ (tokenStarts cmd).take n) :
    i ≤ cmd.length ∧ i + runLength (inWord cmd) cmd.length i ≤ e := by
  obtain ⟨rest, hrest⟩ := marks_prefix (m := isStart cmd) h.le
  rw [tokenStarts, ← hrest, ← h.count, List.take_left] at hi
  have hie := (mem_marks.1 hi).1
  exact ⟨hie.le.trans h.le, run_le hie h.le (h.fresh (by omega))⟩

theorem tokenAt_ne_zero (hcmd : (0 : UInt8) ∉ cmd) (hi : i < cmd.length) :
    tokenAt cmd i ≠ 0 := by
  rw [tokenAt]
  split
  · rw [List.getD_eq_getElem?_getD, List.getElem?_eq_getElem hi, Option.getD_some]
    exact fun h => hcmd (h ▸ List.getElem_mem hi)
  · decide

/-- **The tokens of a line.**  The calls of `gettoken` find the tokens in turn, and then return 0.
With the next call a word is terminated, and its quotes are blanks.  Nothing outside of the line is
read or written. -/
theorem gettoken_tokens (hcmd : (0 : UInt8) ∉ cmd) (t n : ℕ) :
    ∃ c, calls cmd t (n + 1) = some c ∧
      (∀ i, (tokenStarts cmd)[n]? = some i → c.token = tokenAt cmd i ∧ c.p2 = i) ∧
      (c.token = 0 ↔ (tokenStarts cmd).length ≤ n) ∧
      ∀ i ∈ (tokenStarts cmd).take n, inWord cmd i = true →
        (word cmd i).map unquote ++ [0] <+: c.text.drop i := by
  have hdone : ∀ c, Done cmd c → (tokenStarts cmd).length ≤ n →
      (∀ i, (tokenStarts cmd)[n]? = some i → c.token = tokenAt cmd i ∧ c.p2 = i) ∧
      (c.token = 0 ↔ (tokenStarts cmd).length ≤ n) ∧
      ∀ i ∈ (tokenStarts cmd).take n, inWord cmd i = true →
        (word cmd i).map unquote ++ [0] <+: c.text.drop i := fun c h hn => by
    refine ⟨fun i hi => ?_, ⟨fun _ => hn, fun _ => h.token⟩, fun i hi _ => ?_⟩
    · have hlt := (List.getElem?_eq_some_iff.1 hi).1
      omega
    · have hlt := (mem_marks.1 (List.mem_of_mem_take hi)).1
      rw [h.text]
      exact word_terminated hlt.le (.inr rfl)
  obtain ⟨c, hc, ⟨e, he⟩ | ⟨hn, h⟩⟩ := calls_spec hcmd t n
  · rw [calls, hc, Option.bind_some]
    obtain ⟨c', q, e', hget, hq, htoken, hp2, hlt, he'⟩ | ⟨c', hget, hn, h⟩ := he.gettoken hcmd
    · have hql := (List.getElem?_eq_some_iff.1 hq).1
      have hne := tokenAt_ne_zero hcmd (mem_marks.1 (List.mem_of_getElem? hq)).1
      refine ⟨c', hget, fun i hi => ?_, ⟨fun h => ?_, fun h => by omega⟩, fun i hi _ => ?_⟩
      · obtain rfl : q = i := Option.some.inj (hq.symm.trans hi)
        exact ⟨htoken, hp2⟩
      · exact absurd (htoken.symm.trans h) hne
      · obtain ⟨hil, hend⟩ := he.word_le hi
        rw [he'.text]
        exact word_terminated hil (.inl (hend.trans_lt hlt))
    · exact ⟨c', hget, hdone c' h hn.le⟩
  · rw [calls, hc, Option.bind_some]
    exact ⟨c, h.gettoken, hdone c h hn.le⟩

/-- `a "b c">d` -/
theorem gettoken_tokens_quoted :
    (0 : UInt8) ∉ ([97, 32, 34, 98, 32, 99, 34, 62, 100] : List UInt8) ∧
    ∃ c, calls [97, 32, 34, 98, 32, 99, 34, 62, 100] 0 3 = some c ∧ c.token = 62 ∧ c.p2 = 7 ∧
      [32, 98, 32, 99, 32, 0] <+: c.text.drop 2 := by
  have h : (0 : UInt8) ∉ ([97, 32, 34, 98, 32, 99, 34, 62, 100] : List UInt8) := by decide
  obtain ⟨c, hc, htoken, -, hword⟩ := gettoken_tokens h 0 2
  obtain ⟨htok, hp2⟩ := htoken 7 (by decide)
  exact ⟨h, c, hc, htok, hp2, hword 2 (by decide) (by decide)⟩

end Ucore.Sh
