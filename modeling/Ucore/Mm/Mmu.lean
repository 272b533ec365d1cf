/-
  `kern/mm/mmu.h`, and `pte_create` of `kern/mm/pmm.h`: linear addresses and page table entries.

  A page is named by its page number, and an address is a number below `2 ^ 64`.

  * `index_inj`: two addresses have the same indexes exactly if they are in the same page, of the
    `2 ^ 27` pages that an Sv39 page table can tell apart;
  * `ptePage_pteCreate`, `pteCreate_flags`: what is put into an entry is read back.
-/
import Mathlib.Data.BitVec
import Mathlib.Data.Nat.Bitwise

namespace Ucore

def pgSize : ℕ := 4096
def ptSize : ℕ := pgSize * 512
def pdSize : ℕ := ptSize * 512

/-! ## Addresses -/

def pdx1 (la : ℕ) : ℕ := (la >>> 30) &&& 0x1FF
def pdx0 (la : ℕ) : ℕ := (la >>> 21) &&& 0x1FF
def ptx (la : ℕ) : ℕ := (la >>> 12) &&& 0x1FF

def roundDown (a n : ℕ) : ℕ := a - a % n

theorem pdx1_eq (la : ℕ) : pdx1 la = la / 2 ^ 30 % 512 := by
  rw [pdx1, Nat.shiftRight_eq_div_pow]
  exact Nat.and_two_pow_sub_one_eq_mod _ 9

theorem pdx0_eq (la : ℕ) : pdx0 la = la / 2 ^ 21 % 512 := by
  rw [pdx0, Nat.shiftRight_eq_div_pow]
  exact Nat.and_two_pow_sub_one_eq_mod _ 9

theorem ptx_eq (la : ℕ) : ptx la = la / 2 ^ 12 % 512 := by
  rw [ptx, Nat.shiftRight_eq_div_pow]
  exact Nat.and_two_pow_sub_one_eq_mod _ 9

theorem pdx1_lt (la : ℕ) : pdx1 la < 512 := by
  rw [pdx1_eq]
  exact Nat.mod_lt _ (by decide)

theorem pdx0_lt (la : ℕ) : pdx0 la < 512 := by
  rw [pdx0_eq]
  exact Nat.mod_lt _ (by decide)

theorem ptx_lt (la : ℕ) : ptx la < 512 := by
  rw [ptx_eq]
  exact Nat.mod_lt _ (by decide)

/-- The page of an Sv39 address. -/
def vpn (la : ℕ) : ℕ := la / 4096 % 2 ^ 27

theorem vpn_eq (la : ℕ) : vpn la = (pdx1 la * 512 + pdx0 la) * 512 + ptx la := by
  rw [vpn, pdx1_eq, pdx0_eq, ptx_eq]
  omega

/-- **The indexes tell the pages apart.** -/
theorem index_inj {la la' : ℕ} :
    (pdx1 la = pdx1 la' ∧ pdx0 la = pdx0 la' ∧ ptx la = ptx la') ↔ vpn la = vpn la' := by
  have h1 := pdx0_lt la
  have h2 := pdx0_lt la'
  have h3 := ptx_lt la
  have h4 := ptx_lt la'
  rw [vpn_eq, vpn_eq]
  constructor
  · rintro ⟨e1, e2, e3⟩
    rw [e1, e2, e3]
  · intro h
    omega

/-! ## Entries -/

def pteV : BitVec 64 := 0x001#64
def pteR : BitVec 64 := 0x002#64
def pteW : BitVec 64 := 0x004#64
def pteX : BitVec 64 := 0x008#64
def pteU : BitVec 64 := 0x010#64

def pteUser : BitVec 64 := pteR ||| pteW ||| pteX ||| pteU ||| pteV

/-- `pte & PTE_V` -/
def pteValid (pte : BitVec 64) : Bool := pte &&& pteV ≠ 0

/-- `PTE_ADDR(pte)` -/
def pteAddr (pte : BitVec 64) : BitVec 64 := (pte &&& ~~~0x3FF#64) <<< 2

/-- `PPN(PTE_ADDR(pte))` -/
def ptePage (pte : BitVec 64) : ℕ := (pteAddr pte >>> 12).toNat

/-- `pte_create`; its second parameter is an `int`. -/
def pteCreate (ppn : ℕ) (type : BitVec 32) : BitVec 64 :=
  (BitVec.ofNat 64 ppn <<< 10) ||| pteV ||| type.signExtend 64

/-- `perm` is made of the ten low bits, which an entry has room for. -/
def PermOk (perm : BitVec 32) : Prop := perm < 0x400#32

instance (perm : BitVec 32) : Decidable (PermOk perm) := inferInstanceAs (Decidable (_ < _))

variable {perm : BitVec 32} {ppn : ℕ}

theorem PermOk.bit (h : PermOk perm) {i : ℕ} (hi : 10 ≤ i) : perm.getLsbD i = false := by
  have hlt : perm.toNat < 2 ^ 10 := by simpa [PermOk, BitVec.lt_def] using h
  rw [← BitVec.testBit_toNat]
  exact Nat.testBit_lt_two_pow (hlt.trans_le (Nat.pow_le_pow_right (by decide) hi))

/-- The flags that `page_insert` gives to an entry. -/
theorem PermOk.valid (h : PermOk perm) : PermOk (pteV.setWidth 32 ||| perm) := by
  have hlt : perm.toNat < 2 ^ 10 := by simpa [PermOk, BitVec.lt_def] using h
  have hor : (pteV.setWidth 32 ||| perm).toNat < 2 ^ 10 := by
    rw [BitVec.toNat_or]
    exact Nat.or_lt_two_pow (by decide) hlt
  simpa [PermOk, BitVec.lt_def] using hor

theorem PermOk.signExtend (h : PermOk perm) : perm.signExtend 64 = perm.setWidth 64 := by
  refine BitVec.signExtend_eq_setWidth_of_msb_false ?_
  rw [BitVec.msb_eq_getLsbD_last]
  exact h.bit (by decide)

theorem low_bit {i : ℕ} : (0x3FF#64).getLsbD i = decide (i < 10) := by
  rw [← BitVec.testBit_toNat]
  exact Nat.testBit_two_pow_sub_one 10 i

theorem pteV_bit {i : ℕ} : pteV.getLsbD i = decide (i = 0) := by
  rw [← BitVec.testBit_toNat]
  show Nat.testBit (2 ^ 0) i = _
  rw [Nat.testBit_two_pow]
  simp [eq_comm]

theorem pteAddr_pteCreate (h : PermOk perm) :
    pteAddr (pteCreate ppn perm) = BitVec.ofNat 64 ppn <<< 12 := by
  refine BitVec.eq_of_getLsbD_eq fun i hi => ?_
  rw [pteAddr, pteCreate, h.signExtend]
  simp only [BitVec.getLsbD_shiftLeft, BitVec.getLsbD_and, BitVec.getLsbD_or, BitVec.getLsbD_not,
    low_bit, pteV_bit, BitVec.getLsbD_setWidth]
  by_cases h12 : i < 12
  · have hlow : i - 2 < 10 := by omega
    simp [h12, hlow]
  · have hp := h.bit (i := i - 2) (by omega)
    have h0 : i - 2 ≠ 0 := by omega
    have h10 : ¬i - 2 < 10 := by omega
    have hs : i - 2 - 10 = i - 12 := by omega
    have h2 : ¬i < 2 := by omega
    have h64 : i - 2 < 64 := by omega
    simp [h12, hp, h0, h10, hs, h2, h64, hi]

/-- **The page of an entry.** -/
theorem ptePage_pteCreate (h : PermOk perm) (hp : ppn < 2 ^ 52) :
    ptePage (pteCreate ppn perm) = ppn := by
  rw [ptePage, pteAddr_pteCreate h]
  simp only [BitVec.toNat_ushiftRight, BitVec.toNat_shiftLeft, BitVec.toNat_ofNat,
    Nat.shiftLeft_eq, Nat.shiftRight_eq_div_pow]
  omega

theorem pteValid_iff {pte : BitVec 64} : pteValid pte = pte.getLsbD 0 := by
  have h : pte &&& pteV = 0 ↔ pte.getLsbD 0 = false := by
    constructor
    · intro h
      have hb : (pte &&& pteV).getLsbD 0 = false := by
        rw [h]
        rfl
      rwa [BitVec.getLsbD_and, pteV_bit, decide_eq_true rfl, Bool.and_true] at hb
    · intro h
      refine BitVec.eq_of_getLsbD_eq fun i _ => ?_
      rw [BitVec.getLsbD_and, pteV_bit]
      by_cases e : i = 0
      · rw [e, h]
        rfl
      · simp [e]
  unfold pteValid
  cases hb : pte.getLsbD 0 with
  | false => simp [h.2 hb]
  | true =>
    have : pte &&& pteV ≠ 0 := fun e => by
      rw [h.1 e] at hb
      cases hb
    exact decide_eq_true this

@[simp] theorem pteValid_pteCreate : pteValid (pteCreate ppn perm) = true := by
  rw [pteValid_iff, pteCreate]
  simp [pteV_bit]

@[simp] theorem pteValid_zero : pteValid 0 = false := rfl

/-- **The flags of an entry.** -/
theorem pteCreate_flags (h : PermOk perm) :
    pteCreate ppn perm &&& 0x3FF#64 = perm.setWidth 64 ||| pteV := by
  refine BitVec.eq_of_getLsbD_eq fun i hi => ?_
  rw [pteCreate, h.signExtend]
  simp only [BitVec.getLsbD_shiftLeft, BitVec.getLsbD_and, BitVec.getLsbD_or, low_bit, pteV_bit,
    BitVec.getLsbD_setWidth]
  by_cases h10 : i < 10
  · simp [h10, hi, Bool.or_comm]
  · have hp := h.bit (i := i) (by omega)
    have h0 : i ≠ 0 := by omega
    simp [h10, hp, h0]

end Ucore
