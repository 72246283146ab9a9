import Mathlib.Data.BitVec

/-!
# `memmove`, twice

`kernel/string.c` copies from the end when the destination begins inside the source, and
`user/ulib.c` whenever the source does not lie behind the destination. Pointers have 64 bits and
wrap, as on the machine. Copying upwards is right when no store hits a byte of the source that is
still to be read, which is a condition on the distance of the regions (`copyUp_eq`); for copying
downwards it is the mirrored one (`copyDown_eq`). Either test makes sure of the condition for the
direction it takes.

The other functions of the two files are not here. Where a model needs one it has its own
definition of it, as `Fs.Layout` has of `strncpy`.
-/

namespace ZeptOS.Strings

open Function

abbrev Ptr := BitVec 64
abbrev Memory := Ptr → UInt8

/-- `while(n-- > 0) *d++ = *s++` -/
def copyUp (m : Memory) : Nat → Ptr → Ptr → Memory
  | 0, _, _ => m
  | n + 1, d, s => copyUp (Function.update m d (m s)) n (d + 1) (s + 1)

/-- `while(n-- > 0) *--d = *--s` -/
def copyDown (m : Memory) : Nat → Ptr → Ptr → Memory
  | 0, _, _ => m
  | n + 1, d, s => copyDown (Function.update m (d - 1) (m (s - 1))) n (d - 1) (s - 1)

def memmove (m : Memory) (dst src : Ptr) (n : BitVec 32) : Memory :=
  if n = 0 then m
  else if src < dst ∧ src + n.setWidth 64 > dst then
    copyDown m n.toNat (dst + n.setWidth 64) (src + n.setWidth 64)
  else copyUp m n.toNat dst src

def Ulib.memmove (m : Memory) (dst src : Ptr) (n : BitVec 32) : Memory :=
  if src > dst then copyUp m n.toInt.toNat dst src
  else copyDown m n.toInt.toNat (dst + n.signExtend 64) (src + n.signExtend 64)

/-- The memory with the `n` bytes that were at `src` now at `dst`. -/
def moved (m : Memory) (dst src : Ptr) (n : Nat) : Memory := fun a =>
  if (a - dst).toNat < n then m (src + (a - dst)) else m a

variable {m : Memory} {d s dst src : Ptr} {n : Nat}

theorem copyUp_eq (hn : n ≤ 2 ^ 64) (h : ∀ t : Ptr, t ≠ 0 → t.toNat < n → d ≠ s + t) :
    copyUp m n d s = moved m d s n := by
  induction n generalizing m d s with
  | zero => rfl
  | succ n ih =>
    have hrest : ∀ t : Ptr, t ≠ 0 → t.toNat < n → d + 1 ≠ s + 1 + t := by
      intro t ht htn he
      exact h t ht (by omega) (by grind)
    rw [copyUp, ih (by omega) hrest]
    funext a
    simp only [moved]
    by_cases ha : a = d
    · subst ha
      have hout : ¬ (a - (a + 1)).toNat < n := by
        bv_omega
      rw [if_neg hout, if_pos (by simp), update_self, BitVec.sub_self, BitVec.add_zero]
    · have hne : a - d ≠ 0 := fun h0 => ha (by grind)
      have hlt : (a - (d + 1)).toNat < n ↔ (a - d).toNat < n + 1 := by
        bv_omega
      rw [show s + 1 + (a - (d + 1)) = s + (a - d) by grind, update_of_ne ha]
      by_cases hin : (a - d).toNat < n + 1
      · rw [if_pos (hlt.mpr hin), if_pos hin, update_of_ne (h _ hne hin).symm]
      · rw [if_neg fun h' => hin (hlt.mp h'), if_neg hin]

theorem copyDown_eq (hn : n < 2 ^ 64) (h : ∀ t : Ptr, t ≠ 0 → t.toNat < n → d + t ≠ s) :
    copyDown m n (d + BitVec.ofNat 64 n) (s + BitVec.ofNat 64 n) = moved m d s n := by
  induction n generalizing m with
  | zero => rfl
  | succ n ih =>
    have hback : ∀ p : Ptr, p + BitVec.ofNat 64 (n + 1) - 1 = p + BitVec.ofNat 64 n := by
      intro p
      bv_omega
    rw [copyDown, hback, hback, ih (by omega) fun t ht htn => h t ht (by omega)]
    funext a
    simp only [moved]
    have hlast : a = d + BitVec.ofNat 64 n ↔ (a - d).toNat = n := by
      bv_omega
    by_cases ha : a = d + BitVec.ofNat 64 n
    · have := hlast.mp ha
      rw [if_neg (by omega), if_pos (by omega), ha, update_self]
      congr 1
      grind
    · have hne : (a - d).toNat ≠ n := fun h' => ha (hlast.mpr h')
      rw [update_of_ne ha]
      by_cases hin : (a - d).toNat < n
      · rw [if_pos hin, if_pos (by omega), update_of_ne]
        intro he
        refine h (BitVec.ofNat 64 n - (a - d)) ?_ ?_ ?_
        · bv_omega
        · bv_omega
        · grind
      · rw [if_neg hin, if_neg (by omega)]

theorem setWidth_eq (n : BitVec 32) : n.setWidth 64 = BitVec.ofNat 64 n.toNat :=
  (BitVec.ofNat_toNat 64 n).symm

theorem Ulib.memmove_eq (m : Memory) {dst src : Ptr} {n : BitVec 32} (hs : src.toNat + n.toNat ≤ 2 ^ 64)
    (hd : dst.toNat + n.toNat ≤ 2 ^ 64) (hpos : 0 ≤ n.toInt) :
    Ulib.memmove m dst src n = moved m dst src n.toNat := by
  have hn : n.toNat < 2 ^ 32 := n.isLt
  have hmsb : n.msb = false := by simpa [BitVec.msb_eq_toInt] using hpos
  unfold Ulib.memmove
  rw [BitVec.signExtend_eq_setWidth_of_msb_false hmsb, setWidth_eq,
    BitVec.toInt_eq_toNat_of_msb hmsb, Int.toNat_natCast]
  split
  · exact copyUp_eq (by omega) fun t ht htn => by bv_omega
  · exact copyDown_eq (by omega) fun t ht htn => by bv_omega

/-- **Both move the bytes and touch no other**, when the regions lie inside the address space; for
a length that both can be given they are the same. -/
theorem memmove_moves (m : Memory) (dst src : Ptr) (n : BitVec 32)
    (hs : src.toNat + n.toNat ≤ 2 ^ 64) (hd : dst.toNat + n.toNat ≤ 2 ^ 64) :
    memmove m dst src n = moved m dst src n.toNat ∧
      (0 ≤ n.toInt → Ulib.memmove m dst src n = moved m dst src n.toNat ∧
        Ulib.memmove m dst src n = memmove m dst src n) := by
  have hn : n.toNat < 2 ^ 32 := n.isLt
  have hkernel : memmove m dst src n = moved m dst src n.toNat := by
    unfold memmove
    rw [setWidth_eq]
    by_cases hz : n = 0
    · rw [if_pos hz, hz]
      rfl
    rw [if_neg hz]
    split
    · exact copyDown_eq (by omega) fun t ht htn => by bv_omega
    · exact copyUp_eq (by omega) fun t ht htn => by bv_omega
  refine ⟨hkernel, fun hpos => ?_⟩
  have huser := Ulib.memmove_eq m hs hd hpos
  exact ⟨huser, huser.trans hkernel.symm⟩

/-- Three bytes, one place up. -/
theorem memmove_moves_overlap :
    (0 ≤ (3 : BitVec 32).toInt ∧ Ulib.memmove (fun a => UInt8.ofNat a.toNat) 5 4 3 7 = 6) ∧
      Ulib.memmove (fun a => UInt8.ofNat a.toNat) 5 4 3 =
        memmove (fun a => UInt8.ofNat a.toNat) 5 4 3 :=
  ⟨by decide, ((memmove_moves _ 5 4 3 (by decide) (by decide)).2 (by decide)).2⟩

end ZeptOS.Strings
