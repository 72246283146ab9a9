import Mathlib.Data.Nat.Bitwise
import ZeptOS.Param

/-!
# Addresses and page-table entries

The constants and macros of `kernel/riscv.h` and `kernel/memlayout.h`, and the bit
packing of a page-table entry: 44 bits of physical page number above ten flag bits. The
macros are written with the source's own shifts and masks; the lemmas turn them into
division and remainder, which is all the proofs about page tables ever see.
-/

namespace ZeptOS

variable {pa pte perm : Nat}

abbrev PGSIZE : Nat := 4096
abbrev PGSHIFT : Nat := 12
abbrev MAXVA : Nat := 1 <<< (9 + 9 + 9 + 12 - 1)
abbrev KERNBASE : Nat := 0x80200000
abbrev TRAMPOLINE : Nat := MAXVA - PGSIZE
abbrev TRAPFRAME : Nat := TRAMPOLINE - PGSIZE
abbrev SHADOW_STACK : Nat := TRAPFRAME - PGSIZE

abbrev PTE_V : Nat := 1 <<< 0
abbrev PTE_R : Nat := 1 <<< 1
abbrev PTE_W : Nat := 1 <<< 2
abbrev PTE_X : Nat := 1 <<< 3
abbrev PTE_U : Nat := 1 <<< 4

abbrev PXMASK : Nat := 0x1FF

def add64 (a b : Nat) : Nat := (a + b) % 2 ^ 64

def PGROUNDDOWN (a : Nat) : Nat := a &&& (2 ^ 64 - PGSIZE)
def PGROUNDUP (sz : Nat) : Nat := add64 sz (PGSIZE - 1) &&& (2 ^ 64 - PGSIZE)

def PX (level va : Nat) : Nat := (va >>> (PGSHIFT + 9 * level)) &&& PXMASK

def PA2PTE (pa : Nat) : Nat := (pa >>> 12) <<< 10
def PTE2PA (pte : Nat) : Nat := ((pte >>> 10) <<< 12) % 2 ^ 64
def PTE_FLAGS (pte : Nat) : Nat := pte &&& 0x3FF

/-- The test `*pte & PTE_V`. -/
def isValid (pte : Nat) : Prop := pte &&& PTE_V ≠ 0

/-- The test `*pte & (PTE_R|PTE_W|PTE_X)`: the entry is a leaf. -/
def isLeaf (pte : Nat) : Prop := pte &&& (PTE_R ||| PTE_W ||| PTE_X) ≠ 0

instance (pte : Nat) : Decidable (isValid pte) := inferInstanceAs (Decidable (_ ≠ _))
instance (pte : Nat) : Decidable (isLeaf pte) := inferInstanceAs (Decidable (_ ≠ _))

def mkPte (pa perm : Nat) : Nat := PA2PTE pa ||| perm ||| PTE_V

def vpn (va : Nat) : Nat := va / PGSIZE

def pages (sz : Nat) : Nat := (sz + (PGSIZE - 1)) / PGSIZE

/-! ## Rounding and indices -/

theorem PGROUNDDOWN_eq {a : Nat} (h : a < 2 ^ 64) : PGROUNDDOWN a = a / PGSIZE * PGSIZE := by
  have hmask : 2 ^ 64 - PGSIZE = (2 ^ 52 - 1) <<< 12 := by decide
  have hlt : a >>> 12 < 2 ^ 52 := by
    rw [Nat.shiftRight_eq_div_pow]
    exact Nat.div_lt_of_lt_mul (by simpa using h)
  unfold PGROUNDDOWN
  apply Nat.eq_of_testBit_eq
  intro i
  rw [hmask, Nat.testBit_and, Nat.testBit_shiftLeft, show a / PGSIZE * PGSIZE = (a >>> 12) <<< 12 by
    rw [Nat.shiftLeft_eq, Nat.shiftRight_eq_div_pow], Nat.testBit_shiftLeft, Nat.testBit_shiftRight,
    Nat.testBit_two_pow_sub_one]
  by_cases hi : 12 ≤ i
  · have hb : a.testBit i = true → i - 12 < 52 := by
      intro ht
      by_contra hge
      have : a < 2 ^ i := h.trans_le (Nat.pow_le_pow_right (by decide) (by omega))
      rw [Nat.testBit_lt_two_pow this] at ht
      cases ht
    rw [show 12 + (i - 12) = i by omega]
    cases ht : a.testBit i with
    | false => simp
    | true => simp [hi, hb ht]
  · simp [hi]

theorem PGROUNDUP_eq {sz : Nat} (h : sz + PGSIZE ≤ 2 ^ 64) : PGROUNDUP sz = pages sz * PGSIZE := by
  have hlt : sz + (PGSIZE - 1) < 2 ^ 64 := Nat.lt_of_lt_of_le (Nat.add_lt_add_left (by decide) sz) h
  have ha : add64 sz (PGSIZE - 1) = sz + (PGSIZE - 1) := Nat.mod_eq_of_lt hlt
  have := PGROUNDDOWN_eq hlt
  unfold PGROUNDDOWN at this
  unfold PGROUNDUP pages
  rw [ha, this]

theorem PX_eq (level va : Nat) : PX level va = vpn va / 512 ^ level % 512 := by
  unfold PX vpn
  rw [show PXMASK = 2 ^ 9 - 1 by decide, Nat.and_two_pow_sub_one_eq_mod, Nat.shiftRight_eq_div_pow,
    Nat.pow_add, Nat.pow_mul, ← Nat.div_div_eq_div_mul]
  rfl

/-! ## Entries -/

theorem PTE_FLAGS_eq (pte : Nat) : PTE_FLAGS pte = pte % 1024 := by
  unfold PTE_FLAGS
  rw [show 0x3FF = 2 ^ 10 - 1 by decide, Nat.and_two_pow_sub_one_eq_mod]

theorem PTE_FLAGS_lt (pte : Nat) : PTE_FLAGS pte < 1024 := by
  rw [PTE_FLAGS_eq]
  exact Nat.mod_lt _ (by decide)

theorem PTE2PA_eq (h : pte < 2 ^ 62) : PTE2PA pte = pte / 1024 * 4096 := by
  unfold PTE2PA
  rw [Nat.shiftLeft_eq, Nat.shiftRight_eq_div_pow, Nat.mod_eq_of_lt]
  omega

theorem isValid_iff (pte : Nat) : isValid pte ↔ pte % 2 = 1 := by
  unfold isValid
  rw [show PTE_V = 1 from rfl, Nat.and_one_is_mod]
  omega

theorem flags_or_V (h : isValid pte) : PTE_FLAGS pte ||| PTE_V = PTE_FLAGS pte := by
  have hodd : PTE_FLAGS pte % 2 = 1 := by
    have := (isValid_iff pte).mp h
    rw [PTE_FLAGS_eq]
    omega
  refine Nat.eq_of_testBit_eq fun i => ?_
  rw [Nat.testBit_or]
  cases i with
  | zero => simp [hodd]
  | succ i => simp [Nat.testBit_succ]

theorem isLeaf_flags (pte : Nat) : isLeaf (PTE_FLAGS pte) ↔ isLeaf pte := by
  unfold isLeaf PTE_FLAGS
  rw [Nat.and_assoc]
  rfl

theorem perm_lt (h : perm < 1024) : perm ||| PTE_V < 1024 :=
  Nat.or_lt_two_pow (n := 10) h (by decide)

theorem mkPte_eq (h : perm < 1024) : mkPte pa perm = pa / 4096 * 1024 + (perm ||| PTE_V) := by
  unfold mkPte PA2PTE
  rw [Nat.or_assoc, ← Nat.shiftLeft_add_eq_or_of_lt (perm_lt h) (i := 10), Nat.shiftLeft_eq,
    Nat.shiftRight_eq_div_pow]

section
variable (hperm : perm < 1024)
include hperm

theorem mkPte_lt (hpa : pa < 2 ^ 62) : mkPte pa perm < 2 ^ 62 := by
  have := perm_lt hperm
  rw [mkPte_eq hperm]
  omega

theorem PTE2PA_mkPte (hpa : pa < 2 ^ 62) (hal : pa % PGSIZE = 0) : PTE2PA (mkPte pa perm) = pa := by
  have := perm_lt hperm
  have hal : pa % 4096 = 0 := hal
  rw [PTE2PA_eq (mkPte_lt hperm hpa), mkPte_eq hperm]
  omega

theorem PTE_FLAGS_mkPte : PTE_FLAGS (mkPte pa perm) = perm ||| PTE_V := by
  have := perm_lt hperm
  rw [PTE_FLAGS_eq, mkPte_eq hperm]
  omega

theorem isValid_mkPte : isValid (mkPte pa perm) := by
  have hodd : (perm ||| PTE_V) % 2 = 1 := by
    rw [← Nat.and_one_is_mod, Nat.and_or_distrib_right]
    have := Nat.and_one_is_mod perm
    rcases Nat.mod_two_eq_zero_or_one perm with h | h <;> rw [this, h] <;> rfl
  rw [isValid_iff, mkPte_eq hperm]
  omega

theorem isLeaf_mkPte : isLeaf (mkPte pa perm) ↔ isLeaf perm := by
  rw [← isLeaf_flags, PTE_FLAGS_mkPte hperm]
  unfold isLeaf
  rw [Nat.and_or_distrib_right]
  rw [show PTE_V &&& (PTE_R ||| PTE_W ||| PTE_X) = 0 by decide, Nat.or_zero]

end

theorem mkPte_zero (pa : Nat) : mkPte pa 0 = PA2PTE pa ||| PTE_V := by
  unfold mkPte
  rw [Nat.or_zero]

end ZeptOS
