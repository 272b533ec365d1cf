/-
  `kern/driver/dtb.c`: the memory that is described by the device tree.

  `mem` is the memory with the device tree at `dtb_vaddr`.  A name has less than 2^31 characters.
  A string that is compared with one of the code is read no further than it.  `none` is a loop that
  runs out of steps.

  * `Forest`: the nodes of a device tree, and how they are laid out;
  * `Forest.regs`: its properties `reg`, in the order in which they lie;
  * `extractMemoryInfo_iff`: when the one of the memory node is found.
-/
import Mathlib.Data.List.Infix
import Ucore.Lib.BigEndian

namespace Ucore

/-! ## The code -/

def fdt32ToCpu (x : ℕ) : ℕ :=
  ((x &&& 0xff) <<< 24) ||| (((x >>> 8) &&& 0xff) <<< 16) ||| (((x >>> 16) &&& 0xff) <<< 8) |||
    ((x >>> 24) &&& 0xff)

def fdt64ToCpu (x : ℕ) : ℕ :=
  (fdt32ToCpu (x &&& 0xffffffff) <<< 32) ||| fdt32ToCpu (x >>> 32)

/-- `strlen` -/
def strlen (mem : Bytes) : ℕ → ℕ → Option ℕ
  | 0, _ => none
  | n + 1, s => if mem s = 0 then some 0 else (strlen mem n (s + 1)).map (· + 1)

/-- The bytes at `s` are those of a text: `strncmp(s, text, strlen(text)) == 0`, and with the NUL of
    the text `strcmp(s, text) == 0`. -/
def sameText (mem : Bytes) : ℕ → List UInt8 → Bool
  | _, [] => true
  | s, c :: text => mem s = c && sameText mem (s + 1) text

/-- `"memory"` -/
def memoryName : List UInt8 := [109, 101, 109, 111, 114, 121]

/-- `"reg"` -/
def regName : List UInt8 := [114, 101, 103]

/-- `p & ~3` -/
def maskThree (p : ℕ) : ℕ := p / 4 * 4

/-- The loop over the tokens; `some none` is `-1`.  `len` bounds `strlen`. -/
def extractLoop (mem : Bytes) (strings len : ℕ) : ℕ → ℕ → Bool → Option (Option (ℕ × ℕ))
  | 0, _, _ => none
  | n + 1, p, inMemoryNode =>
    match fdt32ToCpu (mem.word 4 p) with
    | 1 =>
      match strlen mem len (p + 4) with
      | none => none
      | some nameLen =>
        extractLoop mem strings len n (maskThree (p + 4 + nameLen + 4))
          (if sameText mem (p + 4) memoryName then true else inMemoryNode)
    | 2 => extractLoop mem strings len n (p + 4) false
    | 3 =>
      let propLen := fdt32ToCpu (mem.word 4 (p + 4))
      let propNameoff := fdt32ToCpu (mem.word 4 (p + 8))
      if inMemoryNode ∧ sameText mem (strings + propNameoff) (regName ++ [0]) ∧ 16 ≤ propLen then
        some (some (fdt64ToCpu (mem.word 8 (p + 12)), fdt64ToCpu (mem.word 8 (p + 20))))
      else extractLoop mem strings len n (maskThree (p + 12 + propLen + 3)) inMemoryNode
    | 4 => extractLoop mem strings len n (p + 4) inMemoryNode
    | _ => some none

/-- `extract_memory_info`: the base and the size of the memory, or `-1`. -/
def extractMemoryInfo (mem : Bytes) (vaddr n : ℕ) : Option (Option (ℕ × ℕ)) :=
  extractLoop mem (vaddr + fdt32ToCpu (mem.word 4 (vaddr + 12))) n n
    (vaddr + fdt32ToCpu (mem.word 4 (vaddr + 8))) false

/-! ## Device trees -/

/-- A property, or a NOP in front of one. -/
inductive Item where
  | nop
  | prop (nameoff : ℕ) (name value : List UInt8)

/-- Nodes one behind the other, with NOPs.  A node has a name, properties and children. -/
inductive Forest where
  | nil
  | nop (rest : Forest)
  | node (name : List UInt8) (items : List Item) (children rest : Forest)

/-- A text, filled up with zeros to whole words. -/
def padded (s : List UInt8) : List UInt8 := s ++ List.replicate ((4 - s.length % 4) % 4) 0

def Item.bytes : Item → List UInt8
  | nop => toBig 4 4
  | prop nameoff _ value => toBig 4 3 ++ (toBig 4 value.length ++ (toBig 4 nameoff ++ padded value))

def Forest.bytes : Forest → List UInt8
  | nil => []
  | nop rest => toBig 4 4 ++ rest.bytes
  | node name items children rest =>
    toBig 4 1 ++ padded (name ++ [0]) ++
      (items.flatMap Item.bytes ++ (children.bytes ++ (toBig 4 2 ++ rest.bytes)))

/-- The name of a property lies in the block of strings. -/
def Item.Valid (mem : Bytes) (strings : ℕ) : Item → Prop
  | nop => True
  | prop nameoff name value => value.length < 2 ^ 32 ∧ nameoff < 2 ^ 32 ∧ 0 ∉ name ∧
      mem.Holds (strings + nameoff) (name ++ [0])

def Forest.Valid (mem : Bytes) (strings : ℕ) : Forest → Prop
  | nil => True
  | nop rest => rest.Valid mem strings
  | node name items children rest => 0 ∉ name ∧ (∀ i ∈ items, i.Valid mem strings) ∧
      children.Valid mem strings ∧ rest.Valid mem strings

/-- The device tree `f` lies at `vaddr`. -/
structure Forest.At (f : Forest) (mem : Bytes) (vaddr offStruct offStrings : ℕ) : Prop where
  align : 4 ∣ vaddr
  alignStruct : 4 ∣ offStruct
  structLt : offStruct < 2 ^ 32
  stringsLt : offStrings < 2 ^ 32
  header : mem.Holds (vaddr + 8) (toBig 4 offStruct ++ toBig 4 offStrings)
  struct : mem.Holds (vaddr + offStruct) (f.bytes ++ toBig 4 9)
  valid : f.Valid mem (vaddr + offStrings)

/-! ## Properties `reg` -/

/-- `memory` or `memory@` with something behind. -/
def isMemory (name : List UInt8) : Bool := name = memoryName ∨ memoryName ++ [64] <+: name

/-- The name begins with `memory`. -/
def beginsMemory (name : List UInt8) : Bool := memoryName <+: name

/-- A property `reg` of at least 16 bytes: whether it is one of a memory node, whether the code
    takes it for one, and its first pair of numbers. -/
structure Reg where
  memory : Bool
  taken : Bool
  pair : ℕ × ℕ

def Item.reg (memory taken : Bool) : Item → Option Reg
  | nop => none
  | prop _ name value =>
    if name = regName ∧ 16 ≤ value.length then
      some ⟨memory, taken, bigEndian (value.take 8), bigEndian ((value.drop 8).take 8)⟩
    else none

/-- The properties in the order in which they lie.  One is taken if the name of its node begins with
    `memory`, or that of a node from which it is reached by going to first children; `b` is whether
    there is one above. -/
def Forest.regs : Bool → Forest → List Reg
  | _, nil => []
  | b, nop rest => rest.regs b
  | b, node name items children rest =>
    let taken := b || beginsMemory name
    items.filterMap (Item.reg (isMemory name) taken) ++ (children.regs taken ++ rest.regs false)

/-- What is documented: the pair of the first memory node that has one. -/
def Forest.memoryInfo (f : Forest) : Option (ℕ × ℕ) :=
  ((f.regs false).find? (·.memory)).map (·.pair)

/-! ## Numbers -/

theorem fdt32ToCpu_eq (x : ℕ) : fdt32ToCpu x = x % 256 * 16777216 + x / 256 % 256 * 65536 +
    x / 65536 % 256 * 256 + x / 16777216 % 256 := by
  have hmask : ∀ n : ℕ, n &&& 0xff = n % 256 := fun n => Nat.and_two_pow_sub_one_eq_mod n 8
  have hlt : ∀ n : ℕ, n % 256 < 256 := fun n => Nat.mod_lt n (by decide)
  have h1 := hlt (x / 256)
  have h2 := hlt (x / 65536)
  have h3 := hlt (x / 16777216)
  simp only [fdt32ToCpu, hmask, Nat.shiftRight_eq_div_pow]
  rw [Nat.or_assoc, Nat.or_assoc, ← Nat.shiftLeft_add_eq_or_of_lt (i := 8) (by omega),
    ← Nat.shiftLeft_add_eq_or_of_lt (i := 16) (by simp only [Nat.shiftLeft_eq]; omega),
    ← Nat.shiftLeft_add_eq_or_of_lt (i := 24) (by simp only [Nat.shiftLeft_eq]; omega)]
  simp only [Nat.shiftLeft_eq]
  omega

/-- A word of a device tree. -/
theorem fdt32ToCpu_word (m : Bytes) (p : ℕ) :
    fdt32ToCpu (m.word 4 p) = bigEndian [m p, m (p + 1), m (p + 2), m (p + 3)] := by
  have h0 := (m p).toNat_lt
  have h1 := (m (p + 1)).toNat_lt
  have h2 := (m (p + 2)).toNat_lt
  have h3 := (m (p + 3)).toNat_lt
  have hx := Bytes.word_eq_four m p
  have e0 : m.word 4 p % 256 = (m p).toNat := by omega
  have e1 : m.word 4 p / 256 % 256 = (m (p + 1)).toNat := by omega
  have e2 : m.word 4 p / 65536 % 256 = (m (p + 2)).toNat := by omega
  have e3 : m.word 4 p / 16777216 % 256 = (m (p + 3)).toNat := by omega
  rw [fdt32ToCpu_eq, e0, e1, e2, e3]
  simp only [bigEndian, List.foldl_cons, List.foldl_nil]
  omega

theorem fdt64ToCpu_word (m : Bytes) (p : ℕ) : fdt64ToCpu (m.word 8 p) = bigEndian
    [m p, m (p + 1), m (p + 2), m (p + 3), m (p + 4), m (p + 5), m (p + 6), m (p + 7)] := by
  have hmask : ∀ n : ℕ, n &&& 0xffffffff = n % 2 ^ 32 := fun n =>
    Nat.and_two_pow_sub_one_eq_mod n 32
  have hlo : m.word 8 p % 2 ^ 32 = m.word 4 p := by
    have hlt := Bytes.word_lt (m := m) 4 p
    rw [Bytes.word_eq_eight, Nat.add_mul_mod_self_left, Nat.mod_eq_of_lt (by simpa using hlt)]
  have hhi : m.word 8 p / 2 ^ 32 = m.word 4 (p + 4) := by
    have hlt := Bytes.word_lt (m := m) 4 p
    rw [Bytes.word_eq_eight, Nat.add_mul_div_left _ _ (by decide),
      Nat.div_eq_of_lt (by simpa using hlt), Nat.zero_add]
  have h4 := (m (p + 4)).toNat_lt
  have h5 := (m (p + 5)).toNat_lt
  have h6 := (m (p + 6)).toNat_lt
  have h7 := (m (p + 7)).toNat_lt
  rw [fdt64ToCpu, hmask, Nat.shiftRight_eq_div_pow, hlo, hhi, fdt32ToCpu_word, fdt32ToCpu_word]
  have hlt : bigEndian [m (p + 4), m (p + 4 + 1), m (p + 4 + 2), m (p + 4 + 3)] < 2 ^ 32 := by
    simp only [bigEndian, List.foldl_cons, List.foldl_nil, Nat.add_assoc, Nat.reduceAdd]
    omega
  rw [← Nat.shiftLeft_add_eq_or_of_lt hlt, Nat.shiftLeft_eq]
  simp only [bigEndian, List.foldl_cons, List.foldl_nil, Nat.add_assoc, Nat.reduceAdd]
  omega

variable {mem : Bytes} {p q r s strings len bound : ℕ} {name text value : List UInt8}
  {b b' b'' : Bool}

/-- The first bytes at an address. -/
theorem holds_four {l : List UInt8} (h : mem.Holds p l) (hl : l.length = 4) :
    [mem p, mem (p + 1), mem (p + 2), mem (p + 3)] = l := by
  match l, hl with
  | [c0, c1, c2, c3], _ =>
    rw [h.head, h.tail.head, h.tail.tail.head, h.tail.tail.tail.head]

theorem word_toBig {n : ℕ} (h : mem.Holds p (toBig 4 n)) (hn : n < 2 ^ 32) :
    fdt32ToCpu (mem.word 4 p) = n := by
  rw [fdt32ToCpu_word, holds_four h length_toBig, bigEndian_toBig]
  exact Nat.mod_eq_of_lt hn

/-- A number of eight bytes. -/
theorem word_eight {l : List UInt8} (h : mem.Holds p l) (hl : l.length = 8) :
    fdt64ToCpu (mem.word 8 p) = bigEndian l := by
  match l, hl with
  | [c0, c1, c2, c3, c4, c5, c6, c7], _ =>
    rw [fdt64ToCpu_word, h.head, h.tail.head, h.tail.tail.head, h.tail.tail.tail.head,
      h.tail.tail.tail.tail.head, h.tail.tail.tail.tail.tail.head,
      h.tail.tail.tail.tail.tail.tail.head, h.tail.tail.tail.tail.tail.tail.tail.head]

/-! ## Strings -/

theorem strlen_eq : ∀ {name : List UInt8} {s len : ℕ}, mem.Holds s (name ++ [0]) → 0 ∉ name →
    name.length < len → strlen mem len s = some name.length
  | [], s, len + 1, h, _, _ => if_pos h.head
  | c :: name, s, len + 1, h, h0, hlen => by
    have hc : mem s = c := h.head
    have hne : mem s ≠ 0 := fun h => h0 (by rw [← h, hc]; exact List.mem_cons_self)
    rw [strlen, if_neg hne, strlen_eq h.tail (fun h => h0 (List.mem_cons_of_mem c h))
      (Nat.lt_of_succ_lt_succ hlen)]
    rfl

/-- The beginning of a string is compared. -/
theorem sameText_prefix : ∀ {text name : List UInt8} {s : ℕ}, mem.Holds s (name ++ [0]) →
    0 ∉ text → (sameText mem s text = true ↔ text <+: name)
  | [], _, _, _, _ => by simp [sameText]
  | c :: text, [], s, h, h0 => by
    have hs : mem s = 0 := h.head
    have hc : c ≠ 0 := fun h => h0 (h ▸ List.mem_cons_self)
    simp [sameText, hs, hc.symm]
  | c :: text, d :: name, s, h, h0 => by
    have hs : mem s = d := h.head
    have ih : sameText mem (s + 1) text = true ↔ text <+: name :=
      sameText_prefix h.tail fun h => h0 (List.mem_cons_of_mem c h)
    rw [sameText, Bool.and_eq_true, ih, List.cons_prefix_cons, hs, decide_eq_true_eq, eq_comm]

/-- A string is compared with its NUL. -/
theorem sameText_eq : ∀ {text name : List UInt8} {s : ℕ}, mem.Holds s (name ++ [0]) →
    0 ∉ text → 0 ∉ name → (sameText mem s (text ++ [0]) = true ↔ name = text)
  | [], [], s, h, _, _ => by simp [sameText, h.head]
  | [], d :: name, s, h, _, hn => by
    have hs : mem s = d := h.head
    have hd : d ≠ 0 := fun h => hn (h ▸ List.mem_cons_self)
    simp [sameText, hs, hd]
  | c :: text, [], s, h, h0, _ => by
    have hs : mem s = 0 := h.head
    have hc : c ≠ 0 := fun h => h0 (h ▸ List.mem_cons_self)
    simp [sameText, hs, hc.symm]
  | c :: text, d :: name, s, h, h0, hn => by
    have hs : mem s = d := h.head
    have ih : sameText mem (s + 1) (text ++ [0]) = true ↔ name = text :=
      sameText_eq h.tail (fun h => h0 (List.mem_cons_of_mem c h))
        fun h => hn (List.mem_cons_of_mem d h)
    rw [List.cons_append, sameText, Bool.and_eq_true, ih, hs, decide_eq_true_eq, List.cons.injEq]

/-! ## Layout -/

theorem length_padded (l : List UInt8) : (padded l).length = maskThree (l.length + 3) := by
  rw [padded, List.length_append, List.length_replicate, maskThree]
  omega

theorem dvd_length_padded (l : List UInt8) : 4 ∣ (padded l).length := by
  rw [length_padded]
  exact Nat.dvd_mul_left 4 _

theorem Item.dvd_length (i : Item) : 4 ∣ i.bytes.length := by
  cases i with
  | nop => exact Nat.dvd_refl 4
  | prop nameoff name value =>
    have h := dvd_length_padded value
    simp only [Item.bytes, List.length_append, length_toBig]
    omega

theorem Item.dvd_lengths (items : List Item) : 4 ∣ (items.flatMap Item.bytes).length := by
  induction items with
  | nil => exact Nat.dvd_zero 4
  | cons i items ih =>
    rw [List.flatMap_cons, List.length_append]
    exact Nat.dvd_add i.dvd_length ih

theorem Forest.dvd_length : ∀ f : Forest, 4 ∣ f.bytes.length
  | nil => Nat.dvd_zero 4
  | nop rest => by
    have h := rest.dvd_length
    rw [Forest.bytes, List.length_append, length_toBig]
    omega
  | node name items children rest => by
    have h := dvd_length_padded (name ++ [0])
    have h1 := Item.dvd_lengths items
    have h2 := children.dvd_length
    have h3 := rest.dvd_length
    simp only [Forest.bytes, List.length_append, length_toBig]
    omega

theorem maskThree_add (h : 4 ∣ p) (n : ℕ) : maskThree (p + n) = p + maskThree n := by
  rw [maskThree, maskThree]
  omega

/-! ## The loop -/

/-- The loop goes on from `p` to `q`, unless it takes one of the properties on the way; `bound` is
    enough for the names. -/
def Scans (mem : Bytes) (strings bound p : ℕ) (b : Bool) (q : ℕ) (b' : Bool) (regs : List Reg) :
    Prop :=
  ∃ k, ∀ len, bound ≤ len → ∀ n, extractLoop mem strings len (n + k) p b =
    match regs.find? (·.taken) with
    | some r => some (some r.pair)
    | none => extractLoop mem strings len n q b'

theorem Scans.refl (p : ℕ) (b : Bool) : Scans mem strings bound p b p b [] :=
  ⟨0, fun _ _ _ => rfl⟩

theorem Scans.trans {l l' : List Reg} (h : Scans mem strings bound p b q b' l)
    (h' : Scans mem strings bound q b' r b'' l') : Scans mem strings bound p b r b'' (l ++ l') := by
  obtain ⟨k, hk⟩ := h
  obtain ⟨k', hk'⟩ := h'
  refine ⟨k' + k, fun len hlen n => ?_⟩
  rw [← Nat.add_assoc, hk len hlen, List.find?_append]
  cases l.find? (·.taken) with
  | some r => rfl
  | none => exact hk' len hlen n

/-- One token. -/
theorem Scans.step (h : ∀ len, bound ≤ len → ∀ n,
    extractLoop mem strings len (n + 1) p b = extractLoop mem strings len n q b') :
    Scans mem strings bound p b q b' [] :=
  ⟨1, h⟩

theorem scans_nop (h : mem.Holds p (toBig 4 4)) : Scans mem strings bound p b (p + 4) b [] :=
  .step fun len _ n => by
    rw [extractLoop, word_toBig h (by decide)]
    rfl

theorem scans_end (h : mem.Holds p (toBig 4 2)) : Scans mem strings bound p b (p + 4) false [] :=
  .step fun len _ n => by
    rw [extractLoop, word_toBig h (by decide)]
    rfl

theorem scans_begin (h : mem.Holds p (toBig 4 1 ++ padded (name ++ [0]))) (hp : 4 ∣ p)
    (h0 : 0 ∉ name) (hlen : name.length < bound) :
    Scans mem strings bound p b (p + (toBig 4 1 ++ padded (name ++ [0])).length)
      (b || beginsMemory name) [] := by
  refine .step fun len hle n => ?_
  have hname : mem.Holds (p + 4) (name ++ [0]) := by
    have hpad := h.right
    rw [length_toBig, padded] at hpad
    exact hpad.left
  have hnext : maskThree (p + 4 + name.length + 4) =
      p + (toBig 4 1 ++ padded (name ++ [0])).length := by
    have h4 : 4 ∣ p + 4 := Nat.dvd_add hp (Nat.dvd_refl 4)
    rw [List.length_append, length_toBig, length_padded, List.length_append, List.length_singleton,
      Nat.add_assoc (p + 4), maskThree_add h4, Nat.add_assoc]
  have hflag : (if sameText mem (p + 4) memoryName = true then true else b) =
      (b || beginsMemory name) := by
    have hiff : sameText mem (p + 4) memoryName = true ↔ memoryName <+: name :=
      sameText_prefix hname (by decide)
    cases hs : sameText mem (p + 4) memoryName with
    | true => simp [beginsMemory, hiff.1 hs]
    | false =>
      have hno : ¬memoryName <+: name := fun h => by
        rw [hiff.2 h] at hs
        cases hs
      simp [beginsMemory, hno]
  rw [extractLoop, word_toBig h.left (by decide)]
  dsimp only
  rw [strlen_eq hname h0 (by omega)]
  dsimp only
  rw [hnext, hflag]
  rfl

theorem extractLoop_prop (h : fdt32ToCpu (mem.word 4 p) = 3) (n : ℕ) :
    extractLoop mem strings len (n + 1) p b =
      if b ∧ sameText mem (strings + fdt32ToCpu (mem.word 4 (p + 8))) (regName ++ [0]) ∧
          16 ≤ fdt32ToCpu (mem.word 4 (p + 4)) then
        some (some (fdt64ToCpu (mem.word 8 (p + 12)), fdt64ToCpu (mem.word 8 (p + 20))))
      else extractLoop mem strings len n
        (maskThree (p + 12 + fdt32ToCpu (mem.word 4 (p + 4)) + 3)) b := by
  rw [extractLoop, h]
  rfl

theorem scans_item {i : Item} {memory : Bool} (hp : 4 ∣ p) (hv : i.Valid mem strings)
    (h : mem.Holds p i.bytes) :
    Scans mem strings bound p b (p + i.bytes.length) b (i.reg memory b).toList := by
  cases i with
  | nop =>
    rw [Item.bytes, length_toBig]
    exact scans_nop h
  | prop nameoff name value =>
    obtain ⟨hvalue, hoff, h0, hname⟩ := hv
    have hlength : mem.Holds (p + 4) (toBig 4 value.length ++ (toBig 4 nameoff ++ padded value)) :=
      h.skip length_toBig
    have hnameoff : mem.Holds (p + 8) (toBig 4 nameoff ++ padded value) := hlength.skip length_toBig
    have hdata : mem.Holds (p + 12) (padded value) := hnameoff.skip length_toBig
    have hsame : sameText mem (strings + nameoff) (regName ++ [0]) = true ↔ name = regName :=
      sameText_eq hname (by decide) h0
    have hnext : maskThree (p + 12 + value.length + 3) =
        p + (Item.prop nameoff name value).bytes.length := by
      simp only [Item.bytes, List.length_append, length_toBig, length_padded]
      rw [Nat.add_assoc (p + 12), maskThree_add (Nat.dvd_add hp (by decide))]
      omega
    refine ⟨1, fun len _ n => ?_⟩
    rw [extractLoop_prop (word_toBig h.left (by decide)), word_toBig hlength.left hvalue,
      word_toBig hnameoff.left hoff, hnext, Item.reg]
    by_cases hreg : name = regName ∧ 16 ≤ value.length
    · cases b with
      | false =>
        rw [if_neg fun h => Bool.false_ne_true h.1, if_pos hreg]
        rfl
      | true =>
        have hfirst : fdt64ToCpu (mem.word 8 (p + 12)) = bigEndian (value.take 8) := by
          have hpair : mem.Holds (p + 12) (value.take 8 ++ value.drop 8) := by
            rw [List.take_append_drop]
            exact hdata.left
          exact word_eight hpair.left (by rw [List.length_take]; omega)
        have hsecond : fdt64ToCpu (mem.word 8 (p + 20)) = bigEndian ((value.drop 8).take 8) := by
          have hpair : mem.Holds (p + 12) (value.take 8 ++ ((value.drop 8).take 8 ++
              (value.drop 8).drop 8)) := by
            rw [List.take_append_drop, List.take_append_drop]
            exact hdata.left
          have hskip : mem.Holds (p + 20) ((value.drop 8).take 8 ++ (value.drop 8).drop 8) :=
            hpair.skip (List.length_take_of_le (by omega : 8 ≤ value.length))
          exact word_eight hskip.left (by rw [List.length_take, List.length_drop]; omega)
        rw [if_pos ⟨rfl, hsame.2 hreg.1, hreg.2⟩, if_pos hreg, hfirst, hsecond]
        rfl
    · rw [if_neg fun h => hreg ⟨hsame.1 h.2.1, h.2.2⟩, if_neg hreg]
      rfl

theorem scans_items {memory : Bool} : ∀ {items : List Item} {p : ℕ}, 4 ∣ p →
    (∀ i ∈ items, i.Valid mem strings) → mem.Holds p (items.flatMap Item.bytes) →
    Scans mem strings bound p b (p + (items.flatMap Item.bytes).length) b
      (items.filterMap (Item.reg memory b))
  | [], p, _, _, _ => .refl p b
  | i :: items, p, hp, hv, h => by
    rw [List.flatMap_cons] at h ⊢
    have hfirst : Scans mem strings bound p b (p + i.bytes.length) b (i.reg memory b).toList :=
      scans_item hp (hv i List.mem_cons_self) h.left
    have hrest : Scans mem strings bound (p + i.bytes.length) b
        (p + i.bytes.length + (items.flatMap Item.bytes).length) b
        (items.filterMap (Item.reg memory b)) :=
      scans_items (Nat.dvd_add hp i.dvd_length)
        (fun j hj => hv j (List.mem_cons_of_mem i hj)) h.right
    have hall := hfirst.trans hrest
    rw [Nat.add_assoc, ← List.length_append] at hall
    have hregs : (i :: items).filterMap (Item.reg memory b) =
        (i.reg memory b).toList ++ items.filterMap (Item.reg memory b) := by
      rw [List.filterMap_cons]
      cases i.reg memory b <;> rfl
    rwa [hregs]

/-- **The nodes of a device tree** are scanned. -/
theorem Forest.scans {f : Forest} : ∀ {p : ℕ} {b : Bool}, 4 ∣ p → f.Valid mem strings →
    f.bytes.length ≤ bound → mem.Holds p f.bytes →
    ∃ b', Scans mem strings bound p b (p + f.bytes.length) b' (f.regs b) := by
  induction f with
  | nil => exact fun _ _ _ _ => ⟨_, .refl _ _⟩
  | nop rest ih =>
    intro p b hp hv hbound h
    rw [Forest.bytes, List.length_append, length_toBig] at hbound
    have h4 : mem.Holds (p + 4) rest.bytes := h.skip length_toBig
    obtain ⟨b', hrest⟩ := ih (b := b) (Nat.dvd_add hp (Nat.dvd_refl 4)) hv (by omega) h4
    refine ⟨b', ?_⟩
    rw [Forest.bytes, List.length_append, length_toBig, ← Nat.add_assoc]
    exact (scans_nop h.left).trans hrest
  | node name items children rest ihc ihr =>
    intro p b hp hv hbound h
    obtain ⟨h0, hitems, hchildren, hrest⟩ := hv
    have hlen : (Forest.node name items children rest).bytes.length =
        (toBig 4 1 ++ padded (name ++ [0])).length + ((items.flatMap Item.bytes).length +
          (children.bytes.length + (4 + rest.bytes.length))) := by
      simp only [Forest.bytes, List.length_append, length_toBig]
    have hname : name.length < (toBig 4 1 ++ padded (name ++ [0])).length := by
      rw [List.length_append, length_padded, length_toBig, List.length_append, maskThree]
      omega
    have hp1 : 4 ∣ p + (toBig 4 1 ++ padded (name ++ [0])).length := by
      have hpad := dvd_length_padded (name ++ [0])
      rw [List.length_append, length_toBig]
      omega
    have hp2 := Nat.dvd_add hp1 (Item.dvd_lengths items)
    have hp3 := Nat.dvd_add hp2 children.dvd_length
    have hbegin : Scans mem strings bound p b _ _ [] := scans_begin h.left hp h0 (by omega)
    have hitems' : Scans mem strings bound _ (b || beginsMemory name) _ (b || beginsMemory name)
        (items.filterMap (Item.reg (isMemory name) (b || beginsMemory name))) :=
      scans_items hp1 hitems h.right.left
    obtain ⟨b1, hc⟩ := ihc hp2 hchildren (by omega) h.right.right.left
    have hend : Scans mem strings bound _ b1 _ false [] := scans_end h.right.right.right.left
    obtain ⟨b2, hr⟩ := ihr (b := false) (Nat.dvd_add hp3 (Nat.dvd_refl 4)) hrest (by omega)
      (h.right.right.right.skip length_toBig)
    refine ⟨b2, ?_⟩
    have hall := hbegin.trans (hitems'.trans (hc.trans (hend.trans hr)))
    rw [hlen, Forest.regs]
    simpa only [List.nil_append, Nat.add_assoc] using hall

/-! ## The function -/

/-- A memory node is taken for one. -/
theorem beginsMemory_of_isMemory (h : isMemory name = true) : beginsMemory name = true := by
  rw [isMemory, decide_eq_true_eq] at h
  rw [beginsMemory, decide_eq_true_eq]
  obtain rfl | h := h
  · exact List.prefix_rfl
  · exact (List.prefix_append ..).trans h

theorem Forest.taken_of_memory {f : Forest} : ∀ {b : Bool}, ∀ r ∈ f.regs b, r.memory = true →
    r.taken = true := by
  induction f with
  | nil =>
    intro b r hr
    exact absurd hr List.not_mem_nil
  | nop rest ih => exact ih
  | node name items children rest ihc ihr =>
    intro b r hr hm
    obtain hr | hr := List.mem_append.1 hr
    · obtain ⟨i, -, hi⟩ := List.mem_filterMap.1 hr
      cases i with
      | nop => cases hi
      | prop nameoff pname value =>
        rw [Item.reg] at hi
        split at hi
        · cases hi
          dsimp only at hm ⊢
          rw [beginsMemory_of_isMemory hm, Bool.or_true]
        · cases hi
    · obtain hr | hr := List.mem_append.1 hr
      · exact ihc r hr hm
      · exact ihr r hr hm

/-- What is found is the first property that is taken. -/
theorem extractMemoryInfo_eq {f : Forest} {vaddr offStruct offStrings : ℕ}
    (h : f.At mem vaddr offStruct offStrings) : ∃ N, ∀ n, N ≤ n →
      extractMemoryInfo mem vaddr n = some (((f.regs false).find? (·.taken)).map (·.pair)) := by
  have hstruct : fdt32ToCpu (mem.word 4 (vaddr + 8)) = offStruct :=
    word_toBig h.header.left h.structLt
  have hstrings : fdt32ToCpu (mem.word 4 (vaddr + 12)) = offStrings :=
    word_toBig (h.header.skip length_toBig) h.stringsLt
  obtain ⟨b, k, hk⟩ := Forest.scans (b := false) (Nat.dvd_add h.align h.alignStruct) h.valid le_rfl
    h.struct.left
  have hend := word_toBig h.struct.right (by decide)
  refine ⟨f.bytes.length + 1 + k, fun n hn => ?_⟩
  obtain ⟨m, rfl⟩ : ∃ m, n = m + 1 + k := ⟨n - 1 - k, by omega⟩
  rw [extractMemoryInfo, hstruct, hstrings, hk _ (by omega)]
  cases (f.regs false).find? (·.taken) with
  | some r => rfl
  | none =>
    dsimp only
    rw [extractLoop, hend]
    rfl

/-- **The memory node.**  `extract_memory_info` terminates.  It finds the first pair of the first
memory node, or none if there is none, if and only if the first property `reg` that is taken is one
of a memory node, or has the same pair. -/
theorem extractMemoryInfo_iff {f : Forest} {vaddr offStruct offStrings : ℕ}
    (h : f.At mem vaddr offStruct offStrings) : ∃ ret,
      (∃ N, ∀ n, N ≤ n → extractMemoryInfo mem vaddr n = some ret) ∧
      (ret = f.memoryInfo ↔ ∀ r, (f.regs false).find? (·.taken) = some r →
        r.memory = true ∨ f.memoryInfo = some r.pair) := by
  refine ⟨_, extractMemoryInfo_eq h, ?_⟩
  cases hfind : (f.regs false).find? (·.taken) with
  | none =>
    have hnone : (f.regs false).find? (·.memory) = none := List.find?_eq_none.2 fun r hr hm =>
      List.find?_eq_none.1 hfind r hr (Forest.taken_of_memory r hr hm)
    rw [Forest.memoryInfo, hnone]
    simp
  | some r =>
    rw [Option.map_some]
    constructor
    · intro h r' hr'
      obtain rfl : r = r' := Option.some.inj hr'
      exact .inr h.symm
    · intro h
      obtain hm | hpair := h r rfl
      · obtain ⟨-, l, l', hl, hbefore⟩ := List.find?_eq_some_iff_append.1 hfind
        have hfirst : (f.regs false).find? (·.memory) = some r :=
          List.find?_eq_some_iff_append.2 ⟨hm, l, l', hl, fun x hx => ?_⟩
        · rw [Forest.memoryInfo, hfirst, Option.map_some]
        · have hnot := hbefore x hx
          have hmem : x ∈ f.regs false := by
            rw [hl]
            exact List.mem_append_left _ hx
          cases hxm : x.memory with
          | false => rfl
          | true => rw [Forest.taken_of_memory x hmem hxm] at hnot; cases hnot
      · exact hpair.symm

/-! ## A node below the root -/

/-- It has a property `reg` with the numbers 1 and 2. -/
def oneNode (name : List UInt8) : Forest :=
  .node [] [] (.node name [.prop 0 regName (toBig 8 1 ++ toBig 8 2)] .nil .nil) .nil

/-- The bytes of the header, the tree and the strings. -/
def oneNodeBytes (name : List UInt8) : List UInt8 :=
  List.replicate 8 0 ++ toBig 4 56 ++ toBig 4 (60 + (oneNode name).bytes.length) ++
    List.replicate 40 0 ++ (oneNode name).bytes ++ toBig 4 9 ++ regName ++ [0]

def oneNodeMem (name : List UInt8) : Bytes := fun j => (oneNodeBytes name).getD j 0

theorem holds_of_forall {l : List UInt8} (h : ∀ j < l.length, mem (p + j) = l.getD j 0) :
    mem.Holds p l := fun j c hj => by
  rw [h j (List.getElem?_eq_some_iff.1 hj).1, List.getD_eq_getElem?_getD, hj, Option.getD_some]

theorem oneNode_at (h0 : 0 ∉ name) (hheader : ∀ j < 8,
      oneNodeMem name (8 + j) = (toBig 4 56 ++ toBig 4 120).getD j 0)
    (hstruct : ∀ j < ((oneNode name).bytes ++ toBig 4 9).length,
      oneNodeMem name (56 + j) = ((oneNode name).bytes ++ toBig 4 9).getD j 0)
    (hstrings : ∀ j < 4, oneNodeMem name (120 + j) = (regName ++ [0]).getD j 0) :
    (oneNode name).At (oneNodeMem name) 0 56 120 where
  align := by decide
  alignStruct := by decide
  structLt := by decide
  stringsLt := by decide
  header := holds_of_forall hheader
  struct := by
    rw [Nat.zero_add]
    exact holds_of_forall hstruct
  valid := by
    refine ⟨List.not_mem_nil, fun i hi => absurd hi List.not_mem_nil, ⟨h0, fun i hi => ?_, trivial,
      trivial⟩, trivial⟩
    rw [List.mem_singleton.1 hi]
    exact ⟨by decide, by decide, by decide, holds_of_forall hstrings⟩

/-- `memory@8` -/
theorem extractMemoryInfo_iff_memory :
    (oneNode (memoryName ++ [64, 56])).At (oneNodeMem (memoryName ++ [64, 56])) 0 56 120 ∧
      ∃ N, ∀ n, N ≤ n →
        extractMemoryInfo (oneNodeMem (memoryName ++ [64, 56])) 0 n = some (some (1, 2)) := by
  have hat : (oneNode (memoryName ++ [64, 56])).At (oneNodeMem (memoryName ++ [64, 56])) 0 56 120 :=
    oneNode_at (by decide) (by decide) (by decide) (by decide)
  obtain ⟨ret, hret, hiff⟩ := extractMemoryInfo_iff hat
  have hreg : ret = (oneNode (memoryName ++ [64, 56])).memoryInfo := hiff.2 fun r hr => by
    cases hr
    exact .inl rfl
  rw [show (oneNode (memoryName ++ [64, 56])).memoryInfo = some (1, 2) from rfl] at hreg
  rw [hreg] at hret
  exact ⟨hat, hret⟩

/-- `memory-bus` is no memory node. -/
theorem extractMemoryInfo_bus :
    (oneNode (memoryName ++ [45, 98, 117, 115])).At (oneNodeMem (memoryName ++ [45, 98, 117, 115]))
        0 56 120 ∧
      (oneNode (memoryName ++ [45, 98, 117, 115])).memoryInfo = none ∧
      ∃ N, ∀ n, N ≤ n → extractMemoryInfo (oneNodeMem (memoryName ++ [45, 98, 117, 115])) 0 n =
        some (some (1, 2)) := by
  have hat : (oneNode (memoryName ++ [45, 98, 117, 115])).At
      (oneNodeMem (memoryName ++ [45, 98, 117, 115])) 0 56 120 :=
    oneNode_at (by decide) (by decide) (by decide) (by decide)
  exact ⟨hat, rfl, extractMemoryInfo_eq hat⟩

end Ucore
